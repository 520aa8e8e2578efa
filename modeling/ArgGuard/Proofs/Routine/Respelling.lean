/-
  ArgGuard.Proofs.Routine.Respelling — strings do not become code.

  What a caller spells, the name of a validator, names of parameters and enumerated strings,
  reaches the text of a routine in two ways: the name as characters of an identifier, all
  else between quotes. An expression with other strings makes a capability that is alike
  (`TypeExpr.Respelled.alike`), a set and options with other strings make a plan that is
  alike (`Plan.alike_make`). So the text quotes no string but those that were given, and
  has the same lines for other strings, these literals and the identifier aside
  (`Plan.strings_stay_quoted`).
-/

import ArgGuard.Proofs.Capability.Expression
import ArgGuard.Proofs.Number.Text
import ArgGuard.Proofs.Routine.Alike
import ArgGuard.Proofs.Routine.Guards

namespace ArgGuard

open Call (except_bind_ok)
open List (Forall₂)
open Text

variable {σ : Type} {a b : Vocabulary}

/-! ## Conditions of the stock library -/

theorem Number.printable_text (x : Number) : Printable x.text := by
  cases hx : x.isFinite with
  | true =>
    intro c hc
    have := (isNumeric_text hx).2 c hc
    simp only [isNumeric, Bool.or_eq_true, beq_iff_eq] at this
    rcases this with (((h | rfl) | rfl) | rfl) | rfl
    · exact le_of_isDigit h
    all_goals decide
  | false =>
    cases x with
    | nan => show Printable "NaN"; decide
    | infinite s => cases s <;> (simp only [text]; decide)
    | finite => cases hx

namespace Capability

/-- A condition with code before and behind its variable. -/
theorem alike_around {f : Fragment} (before after : String) (h : ∀ ref, f.source ref = [.code (before ++ ref ++ after)])
    (hbefore : Printable before) (hafter : Printable after) : f.Alike a b f :=
  .of_code h fun _ href => printable_append.mpr ⟨printable_append.mpr ⟨hbefore, href⟩, hafter⟩

/-- A condition that begins with its variable. -/
theorem alike_behind {f : Fragment} (after : String) (h : ∀ ref, f.source ref = [.code (ref ++ after)])
    (hafter : Printable after) : f.Alike a b f :=
  .of_code h fun _ href => printable_append.mpr ⟨href, hafter⟩

theorem alike_scalar (s : Scalar) : s.fragment.Alike a b s.fragment := by
  have htype : ∀ name, Printable name → (Fragment.hasType name).Alike a b (.hasType name) := fun name hname =>
    .of_code (fun _ => rfl) fun ref href => by simp only [printable_append, href, hname, and_true]; decide
  have hinteger : Fragment.isInteger.Alike a b .isInteger :=
    alike_around "Number.isInteger(" ")" (fun _ => rfl) (by decide) (by decide)
  cases s with
  | str => exact htype _ (by decide)
  | nonEmptyStr => exact .group (.both (htype _ (by decide)) (alike_behind ".length > 0" (fun _ => rfl) (by decide)))
  | num => exact alike_around "Number.isFinite(" ")" (fun _ => rfl) (by decide) (by decide)
  | int => exact hinteger
  | positiveInt => exact .group (.both hinteger (alike_behind " > 0" (fun _ => rfl) (by decide)))
  | positiveOrZeroInt => exact .group (.both hinteger (alike_behind " >= 0" (fun _ => rfl) (by decide)))
  | bool => exact htype _ (by decide)
  | any => exact .of_code (fun _ => rfl) fun _ _ => by decide
  | defined =>
    exact .group (.both (alike_behind " !== null" (fun _ => rfl) (by decide))
      (alike_behind " !== undefined" (fun _ => rfl) (by decide)))

namespace Constant

/-- The string that is listed, where it is one. -/
def text? : Constant → Option String
  | .text s => some s
  | _ => none

/-- A listed string for another, all else as it is. -/
inductive Respelled : Constant → Constant → Prop
  | text (s t : String) : Respelled (.text s) (.text t)
  | same (k : Constant) : Respelled k k

theorem Respelled.isNaN {k l : Constant} (h : k.Respelled l) : k.isNaN = l.isNaN := by cases h <;> rfl

theorem alike_same {k : Constant} (ha : ∀ s ∈ k.text?, a.quoted s) (hb : ∀ s ∈ k.text?, b.quoted s) :
    (Enumeration.piece k.value).Alike a b (Enumeration.piece k.value) := by
  cases k with
  | text s => exact .literal (ha s rfl) (hb s rfl)
  | number x => exact .code x.printable_text
  | bool v => cases v <;> exact .code (by decide)
  | null => exact .code (by decide)

theorem Respelled.piece {k l : Constant} (h : k.Respelled l) (ha : ∀ s ∈ k.text?, a.quoted s)
    (hb : ∀ s ∈ l.text?, b.quoted s) : (Enumeration.piece k.value).Alike a b (Enumeration.piece l.value) := by
  cases h with
  | text s t => exact .literal (ha s rfl) (hb t rfl)
  | same k => exact alike_same ha hb

end Constant

theorem alike_comparisons {k l : Constant} {ks ls : List Constant} (h : k.Respelled l)
    (hs : Forall₂ Constant.Respelled ks ls) (ha : ∀ k' ∈ k :: ks, ∀ s ∈ k'.text?, a.quoted s)
    (hb : ∀ l' ∈ l :: ls, ∀ s ∈ l'.text?, b.quoted s) :
    (Enumeration.comparisons k.value (ks.map (·.value))).Alike a b
      (Enumeration.comparisons l.value (ls.map (·.value))) := by
  have hfirst := Fragment.Alike.equals (h.piece (ha k List.mem_cons_self) (hb l List.mem_cons_self))
    (Enumeration.meaning k.value) (Enumeration.meaning l.value)
  induction hs generalizing k l with
  | nil => exact hfirst
  | cons h' _ ih =>
    have ha' := fun k' hk => ha k' (List.mem_cons_of_mem _ hk)
    have hb' := fun l' hl => hb l' (List.mem_cons_of_mem _ hl)
    exact .either hfirst (ih h' ha' hb' (.equals (h'.piece (ha' _ List.mem_cons_self) (hb' _ List.mem_cons_self)) _ _))

theorem alike_enumeration {ks ls : List Constant} (h : Forall₂ Constant.Respelled ks ls)
    (ha : ∀ k ∈ ks, ∀ s ∈ k.text?, a.quoted s) (hb : ∀ l ∈ ls, ∀ s ∈ l.text?, b.quoted s) :
    (Enumeration.fragment (ks.map (·.value))).Alike a b (Enumeration.fragment (ls.map (·.value))) := by
  cases h with
  | nil => exact .of_code (fun _ => rfl) fun _ _ => by decide
  | cons h hs => exact .group (alike_comparisons h hs ha hb)

theorem any_isNaN {ks ls : List Constant} (h : Forall₂ Constant.Respelled ks ls) :
    ks.any (·.isNaN) = ls.any (·.isNaN) := by
  induction h with
  | nil => rfl
  | cons h _ ih => rw [List.any_cons, List.any_cons, h.isNaN, ih]

theorem enumeration_ok {id : Nat} {ks : List Constant} {name? : Option String} {c : Capability σ}
    (h : Enumeration.capability id (ks.map (·.value)) name? = .ok c) : c.coerce? = none ∧
      c.inline? = if ks.any (·.isNaN) then none else some (Enumeration.fragment (ks.map (·.value))) := by
  obtain ⟨texts, ht⟩ := literal?_values ks
  simp only [Enumeration.capability, ht, holdsNaN_values] at h
  cases h
  exact ⟨rfl, rfl⟩

theorem alike_alternatives {f g : Fragment} {fs gs : List Fragment} (h : f.Alike a b g)
    (hs : Forall₂ (Fragment.Alike a b) fs gs) : (Union.alternatives f fs).Alike a b (Union.alternatives g gs) := by
  induction hs generalizing f g with
  | nil => exact h.group
  | cons h' _ ih => exact h.group.either (ih h')

/-- Members that are alike have forms that are alike, or none of both have forms of all. -/
theorem alike_forms {cs ds : List (Capability σ)} (h : Forall₂ (Capability.Alike a b) cs ds) :
    Option.Rel (Forall₂ (Fragment.Alike a b)) (cs.mapM (·.inline?)) (ds.mapM (·.inline?)) := by
  induction h with
  | nil => exact .some .nil
  | @cons c d cs ds h _ ih =>
    have hform := h.form
    rw [List.mapM_cons, List.mapM_cons]
    generalize c.inline? = x at *
    generalize d.inline? = y at *
    generalize cs.mapM (·.inline?) = xs at *
    generalize ds.mapM (·.inline?) = ys at *
    cases hform with
    | none => exact .none
    | some hf =>
      cases ih with
      | none => exact .none
      | some hfs => exact .some (.cons hf hfs)

theorem alike_fragment? {cs ds : List (Capability σ)} (h : Forall₂ (Capability.Alike a b) cs ds) :
    Option.Rel (Fragment.Alike a b) (Union.fragment? cs) (Union.fragment? ds) := by
  have hforms := alike_forms h
  unfold Union.fragment?
  generalize cs.mapM (·.inline?) = xs at *
  generalize ds.mapM (·.inline?) = ys at *
  cases hforms with
  | none => exact .none
  | some hfs =>
    cases hfs with
    | nil => exact .none
    | cons hf hfs => exact .some (alike_alternatives hf hfs).group

theorem rel_map {x y : Option Fragment} (h : Option.Rel (Fragment.Alike a b) x y) {φ : Fragment → Fragment}
    (hφ : ∀ f g, f.Alike a b g → (φ f).Alike a b (φ g)) : Option.Rel (Fragment.Alike a b) (x.map φ) (y.map φ) := by
  cases h with
  | none => exact .none
  | some h => exact .some (hφ _ _ h)

end Capability

/-! ## Expressions -/

namespace TypeExpr

mutual

/-- The strings that an expression lists. -/
def listed : TypeExpr σ → List String
  | .enumOf _ values _ => values.filterMap (·.text?)
  | .arrayOf _ item => item.listed
  | .maybe _ inner => inner.listed
  | .union _ members => allListed members
  | .numeric _ inner => inner.listed
  | _ => []

def allListed : List (TypeExpr σ) → List String
  | [] => []
  | e :: es => e.listed ++ allListed es

end

mutual

/-- Expressions that differ in the strings they list, in names and in identities only. -/
inductive Respelled : TypeExpr σ → TypeExpr σ → Prop
  | scalar (i j : Nat) (s : Capability.Scalar) : Respelled (.scalar i s) (.scalar j s)
  | enumOf (i j : Nat) {ks ls : List Capability.Constant} (m n : Option String) :
      Forall₂ Capability.Constant.Respelled ks ls → Respelled (.enumOf i ks m) (.enumOf j ls n)
  | instanceOf (i j : Nat) (cls m n : String) : Respelled (.instanceOf i cls m) (.instanceOf j cls n)
  | predicate (i j : Nat) (m n : String) (test : Value → Call σ Bool) (reason? : Option String) :
      Respelled (.predicate i m test reason?) (.predicate j n test reason?)
  | schema (i j : Nat) (compiler : SchemaCompiler σ) (given : Value) (m n : Option String) :
      Respelled (.schema i compiler given m) (.schema j compiler given n)
  | arrayOf (i j : Nat) {d e : TypeExpr σ} : Respelled d e → Respelled (.arrayOf i d) (.arrayOf j e)
  | maybe (i j : Nat) {d e : TypeExpr σ} : Respelled d e → Respelled (.maybe i d) (.maybe j e)
  | union (i j : Nat) {ds es : List (TypeExpr σ)} : AllRespelled ds es → Respelled (.union i ds) (.union j es)
  | numeric (i j : Nat) {d e : TypeExpr σ} : Respelled d e → Respelled (.numeric i d) (.numeric j e)

inductive AllRespelled : List (TypeExpr σ) → List (TypeExpr σ) → Prop
  | nil : AllRespelled [] []
  | cons {d e : TypeExpr σ} {ds es : List (TypeExpr σ)} : Respelled d e → AllRespelled ds es →
      AllRespelled (d :: ds) (e :: es)

end

mutual

theorem Respelled.refl : ∀ e : TypeExpr σ, e.Respelled e
  | .scalar i s => .scalar i i s
  | .enumOf i _ m => .enumOf i i m m (List.forall₂_same.mpr fun k _ => .same k)
  | .instanceOf i cls m => .instanceOf i i cls m m
  | .predicate i m test reason? => .predicate i i m m test reason?
  | .schema i compiler given m => .schema i i compiler given m m
  | .arrayOf i item => .arrayOf i i (Respelled.refl item)
  | .maybe i inner => .maybe i i (Respelled.refl inner)
  | .union i members => .union i i (AllRespelled.refl members)
  | .numeric i inner => .numeric i i (Respelled.refl inner)

theorem AllRespelled.refl : ∀ es : List (TypeExpr σ), AllRespelled es es
  | [] => .nil
  | e :: es => .cons (Respelled.refl e) (AllRespelled.refl es)

end

mutual

/-- Capabilities of expressions that differ in strings only have inline forms that do. -/
theorem Respelled.alike : ∀ {d e : TypeExpr σ}, d.Respelled e → (∀ s ∈ d.listed, a.quoted s) →
    (∀ s ∈ e.listed, b.quoted s) → ∀ {c c' : Capability σ}, d.build = .ok c → e.build = .ok c' → c.Alike a b c'
  | _, _, .scalar i j s, _, _, c, c', hc, hc' => by
    cases hc
    cases hc'
    exact ⟨rfl, .some (Capability.alike_scalar s)⟩
  | _, _, .enumOf i j m n h, ha, hb, c, c', hc, hc' => by
    obtain ⟨hcoerce, hform⟩ := Capability.enumeration_ok hc
    obtain ⟨hcoerce', hform'⟩ := Capability.enumeration_ok hc'
    refine ⟨by rw [hcoerce, hcoerce'], ?_⟩
    -- a NaN is listed by both or by neither
    rw [hform, hform', Capability.any_isNaN h]
    split
    · exact .none
    · exact .some (Capability.alike_enumeration h (fun k hk s hs => ha s (List.mem_filterMap.mpr ⟨k, hk, hs⟩))
        fun l hl s hs => hb s (List.mem_filterMap.mpr ⟨l, hl, hs⟩))
  | _, _, .instanceOf i j cls m n, _, _, c, c', hc, hc' => by
    cases hc
    cases hc'
    exact ⟨rfl, .none⟩
  | _, _, .predicate i j m n test reason?, _, _, c, c', hc, hc' => by
    cases hc
    cases hc'
    exact ⟨rfl, .none⟩
  | _, _, .schema i j compiler given m n, _, _, c, c', hc, hc' => by
    obtain ⟨_, _, _, rfl⟩ := Capability.ofSchema_eq_ok hc
    obtain ⟨_, _, _, rfl⟩ := Capability.ofSchema_eq_ok hc'
    exact ⟨rfl, .none⟩
  | _, _, .arrayOf i j h, ha, hb, c, c', hc, hc' => by
    obtain ⟨d, hd, rfl⟩ := arrayOf_eq_ok hc
    obtain ⟨d', hd', rfl⟩ := arrayOf_eq_ok hc'
    have hitem := Respelled.alike h ha hb hd hd'
    have hlist : Fragment.isList.Alike a b .isList :=
      Capability.alike_around "Array.isArray(" ")" (fun _ => rfl) (by decide) (by decide)
    exact ⟨rfl, Capability.rel_map hitem.form fun _ _ hf => (hlist.both hf.every).group⟩
  | _, _, .maybe i j h, ha, hb, c, c', hc, hc' => by
    obtain ⟨d, hd, rfl⟩ := maybe_eq_ok hc
    obtain ⟨d', hd', rfl⟩ := maybe_eq_ok hc'
    have hinner := Respelled.alike h ha hb hd hd'
    have hnull : Fragment.isNull.Alike a b .isNull := Capability.alike_behind " === null" (fun _ => rfl) (by decide)
    have hundefined : Fragment.isUndefined.Alike a b .isUndefined :=
      Capability.alike_behind " === undefined" (fun _ => rfl) (by decide)
    exact ⟨hinner.coerces, Capability.rel_map hinner.form fun _ _ hf => (hnull.either (hundefined.either hf.group)).group⟩
  | _, _, .union i j h, ha, hb, c, c', hc, hc' => by
    obtain ⟨ds, hds, hc⟩ := union_eq_ok hc
    obtain ⟨ds', hds', hc'⟩ := union_eq_ok hc'
    obtain ⟨hcoerce, hform, -⟩ := Capability.Union.capability_eq hc
    obtain ⟨hcoerce', hform', -⟩ := Capability.Union.capability_eq hc'
    refine ⟨by rw [hcoerce, hcoerce'], ?_⟩
    rw [hform, hform']
    exact Capability.alike_fragment? (AllRespelled.alike h ha hb hds hds')
  | _, _, .numeric i j h, ha, hb, c, c', hc, hc' => by
    obtain ⟨d, hd, rfl⟩ := numeric_eq_ok hc
    obtain ⟨d', hd', rfl⟩ := numeric_eq_ok hc'
    exact ⟨rfl, (Respelled.alike h ha hb hd hd').form⟩

theorem AllRespelled.alike : ∀ {ds es : List (TypeExpr σ)}, AllRespelled ds es → (∀ s ∈ allListed ds, a.quoted s) →
    (∀ s ∈ allListed es, b.quoted s) → ∀ {cs cs' : List (Capability σ)}, buildAll ds = .ok cs → buildAll es = .ok cs' →
    Forall₂ (Capability.Alike a b) cs cs'
  | _, _, .nil, _, _, cs, cs', hc, hc' => by
    cases hc
    cases hc'
    exact .nil
  | _, _, .cons h hs, ha, hb, cs, cs', hc, hc' => by
    obtain ⟨c, ds, hd, hds, rfl⟩ := cons_eq_ok hc
    obtain ⟨c', ds', hd', hds', rfl⟩ := cons_eq_ok hc'
    rw [allListed, List.forall_mem_append] at ha hb
    exact .cons (Respelled.alike h ha.1 hb.1 hd hd') (AllRespelled.alike hs ha.2 hb.2 hds hds')

end

end TypeExpr

/-! ## Sets and options -/

/-- Parameters that differ in their names and in the strings of their types only. -/
structure ParameterSpec.Respelled (p q : ParameterSpec σ) : Prop where
  position : p.position = q.position
  required : p.required = q.required
  default : p.default.Alike q.default
  type : ∃ d e : TypeExpr σ, d.Respelled e ∧ d.build = .ok p.type ∧ e.build = .ok q.type

inductive Slurpy.Respelled : Slurpy σ → Slurpy σ → Prop
  | off : Respelled .off .off
  | on : Respelled .on .on
  | checked {d e : TypeExpr σ} {c c' : Capability σ} : d.Respelled e → d.build = .ok c → e.build = .ok c' →
      Respelled (.checked c) (.checked c')

/-- Options that differ in the name and in the strings of a type only, where logs go aside. -/
structure Options.Respelled (o o' : Options σ) : Prop where
  sourceMode : o.sourceMode = o'.sourceMode
  outputMode : o.outputMode = o'.outputMode
  strict : o.strict = o'.strict
  codegen : o.codegen = o'.codegen
  slurpy : o.slurpy.Respelled o'.slurpy

namespace Plan

/-- The strings that a plan was given: its name, and the names of its parameters and what
their types list, to be quoted. -/
def vocabulary (p : Plan σ) : Vocabulary where
  name := p.name
  quoted s := s ∈ p.declared ∨ ∃ c ∈ p.capabilities, ∃ e : TypeExpr σ, e.build = .ok c ∧ s ∈ e.listed

variable {set set' : ParameterSet σ} {o o' : Options σ}

theorem alike_type {p q : Plan σ} {c c' : Capability σ} (hc : c ∈ p.capabilities) (hc' : c' ∈ q.capabilities)
    {d e : TypeExpr σ} (h : d.Respelled e) (hd : d.build = .ok c) (he : e.build = .ok c') :
    c.Alike p.vocabulary q.vocabulary c' :=
  h.alike (fun _ hs => Or.inr ⟨c, hc, d, hd, hs⟩) (fun _ hs => Or.inr ⟨c', hc', e, he, hs⟩) hd he

theorem alike_step {p q : ParameterSpec σ} (h : p.Respelled q) (hmode : o.sourceMode = o'.sourceMode)
    (hp : p ∈ set.specs) (hq : q ∈ set'.specs) :
    (step o.sourceMode p).Alike (make set o).vocabulary (make set' o').vocabulary (step o'.sourceMode q) := by
  have hmem : step o.sourceMode p ∈ (make set o).steps := List.mem_map_of_mem hp
  have hmem' : step o'.sourceMode q ∈ (make set' o').steps := List.mem_map_of_mem hq
  have hname : (make set o).vocabulary.quoted p.name := Or.inl (List.mem_map.mpr ⟨_, hmem, rfl⟩)
  have hname' : (make set' o').vocabulary.quoted q.name := Or.inl (List.mem_map.mpr ⟨_, hmem', rfl⟩)
  obtain ⟨d, e, htype, hd, he⟩ := h.type
  refine ⟨⟨hname, hname'⟩, ?_, h.required, h.default,
    alike_type (mem_capabilities_step hmem) (mem_capabilities_step hmem') htype hd he⟩
  rw [← hmode]
  cases o.sourceMode with
  | named => exact .key hname hname'
  | positional =>
    show Fetch.Alike _ _ (.index p.position) (.index q.position)
    rw [h.position]
    exact .index _

theorem alike_steps (h : Forall₂ ParameterSpec.Respelled set.specs set'.specs) (hmode : o.sourceMode = o'.sourceMode) :
    Forall₂ (Step.Alike (make set o).vocabulary (make set' o').vocabulary) (make set o).steps (make set' o').steps := by
  -- by induction on parts of the sets: the vocabularies stay those of the whole plans
  have hpart : ∀ {ps qs : List (ParameterSpec σ)}, Forall₂ ParameterSpec.Respelled ps qs → ps ⊆ set.specs →
      qs ⊆ set'.specs → Forall₂ (Step.Alike (make set o).vocabulary (make set' o').vocabulary)
        (ps.map (step o.sourceMode)) (qs.map (step o'.sourceMode)) := by
    intro ps qs hall hps hqs
    induction hall with
    | nil => exact .nil
    | cons hspec _ ih =>
      rw [List.cons_subset] at hps hqs
      exact .cons (alike_step hspec hmode hps.1 hqs.1) (ih hps.2 hqs.2)
  exact hpart h (List.Subset.refl _) (List.Subset.refl _)

theorem alike_extras (set set' : ParameterSet σ) (ho : o.Respelled o') : (extrasOf o).isReject = (extrasOf o').isReject ∧
    (extrasOf o).isKeep = (extrasOf o').isKeep ∧
    Option.Rel (Capability.Alike (make set o).vocabulary (make set' o').vocabulary)
    (extrasOf o).type? (extrasOf o').type? := by
  have hmem : ∀ {set : ParameterSet σ} {o : Options σ} {c : Capability σ}, o.slurpy = .checked c →
      c ∈ (make set o).capabilities := fun hc => mem_capabilities_extras (type?_extrasOf_eq.mpr hc)
  have hslurpy := ho.slurpy
  unfold extrasOf
  rw [ho.sourceMode, ho.strict]
  generalize hx : o.slurpy = x at *
  generalize hy : o'.slurpy = y at *
  cases hslurpy with
  | off =>
    dsimp only
    split <;> exact ⟨rfl, rfl, .none⟩
  | on => exact ⟨rfl, rfl, .none⟩
  | checked htype hd he => exact ⟨rfl, rfl, .some (alike_type (hmem hx) (hmem hy) htype hd he)⟩

theorem alike_make (h : Forall₂ ParameterSpec.Respelled set.specs set'.specs) (ho : o.Respelled o') :
    (make set o).Alike (make set o).vocabulary (make set' o').vocabulary (make set' o') := by
  obtain ⟨hrejects, hkeeps, hextra⟩ := alike_extras set set' ho
  exact ⟨rfl, rfl, ho.sourceMode, ho.outputMode, alike_steps h ho.sourceMode, hrejects, hkeeps, hextra⟩

/-- A plan over the stock library is alike itself. -/
theorem alike_self (h : ∀ c ∈ (make set o).capabilities, ∃ e : TypeExpr σ, e.build = .ok c) :
    (make set o).Alike (make set o).vocabulary (make set o).vocabulary (make set o) := by
  refine alike_make (List.forall₂_same.mpr fun p hp => ?_) ⟨rfl, rfl, rfl, rfl, ?_⟩
  · obtain ⟨e, he⟩ := h p.type (mem_capabilities_step (s := step o.sourceMode p) (List.mem_map_of_mem hp))
    refine ⟨rfl, rfl, ?_, e, e, .refl e, he, he⟩
    cases p.default with
    | none => exact .none
    | value v => exact .value v v
    | factory i m => exact .factory i i m m
  · cases hslurpy : o.slurpy with
    | off => exact .off
    | on => exact .on
    | checked c =>
      obtain ⟨e, he⟩ := h c (mem_capabilities_extras (type?_extrasOf_eq.mpr hslurpy))
      exact .checked (.refl e) he he

/-- What differs from a set in strings only is over the stock library. -/
theorem stock_of_respelled (h : Forall₂ ParameterSpec.Respelled set.specs set'.specs) (ho : o.Respelled o') :
    ∀ c ∈ (make set' o').capabilities, ∃ e : TypeExpr σ, e.build = .ok c := by
  intro c hc
  rcases List.mem_append.mp hc with hc | hc
  · obtain ⟨s, hs, rfl⟩ := List.mem_map.mp hc
    obtain ⟨q, hq, rfl⟩ := List.mem_map.mp hs
    obtain ⟨p, hp⟩ := exists_of_forall₂ (List.Forall₂.flip (R := flip ParameterSpec.Respelled) h) q hq
    obtain ⟨_, e, _, _, he⟩ := ParameterSpec.Respelled.type hp
    exact ⟨e, he⟩
  · have hchecked : o'.slurpy = .checked c := type?_extrasOf_eq.mp (Option.mem_toList.mp hc)
    have hslurpy := ho.slurpy
    rw [hchecked] at hslurpy
    generalize o.slurpy = x at *
    cases hslurpy with
    | checked _ _ he => exact ⟨_, he⟩

end Plan

/-! ## The text -/

/-- What the text of a program makes of the strings that were given: each quoted string is one of
them, and is written between two quotes so that it reads as itself; its name is characters
of an identifier; and no line of it holds a control, so that it breaks where its lines end. -/
structure Program.Confines (g : Program) (v : Vocabulary) : Prop where
  identifier : ∃ w, Piece.routineName v.name = "validate_" ++ w ∧ ∀ c ∈ w.toList, Piece.isIdentifierChar c = true
  routine : ∀ l ∈ g.lines, ∀ name, .routine name ∈ l.pieces → name = v.name
  literal : ∀ l ∈ g.lines, ∀ s, .literal s ∈ l.pieces → v.quoted s ∧ ∃ inner,
    (Piece.literal s).text.toList = '"' :: (inner ++ ['"']) ∧ Quoted.Inner inner ∧ Quoted.unescape inner = some s.toList
  printable : ∀ l ∈ g.lines, Printable l.text
  breaks : g.source.toList.splitOn '\n' = g.lines.map (·.text.toList)

theorem Program.Alike.confines {g h : Program} (hgh : g.Alike a b h) : g.Confines a := by
  have hlines : ∀ l ∈ g.lines, ∃ m, l.Alike a b m := exists_of_forall₂ hgh.lines
  have hpieces : ∀ l ∈ g.lines, ∀ p ∈ l.pieces, ∃ q, p.Alike a b q := fun l hl =>
    (hlines l hl).elim fun _ hm => exists_of_forall₂ hm.pieces
  have hprintable : ∀ l ∈ g.lines, Printable l.text := fun l hl => (hlines l hl).elim fun _ hm => hm.printable
  refine ⟨Piece.routineName_eq _, fun l hl name hname => ?_, fun l hl s hs => ?_, hprintable, ?_⟩
  · obtain ⟨q, hq⟩ := hpieces l hl _ hname
    cases hq
    rfl
  · obtain ⟨q, hq⟩ := hpieces l hl _ hs
    cases hq with
    | literal hs _ => exact ⟨hs, _, Quoted.toList_quote s, Quoted.inner_escape _, Quoted.unescape_escape _⟩
  · have hsource : g.source.toList = ['\n'].intercalate (g.lines.map (·.text.toList)) := by
      rw [source, String.toList_intercalate, List.map_map]
      rfl
    rw [hsource, List.splitOn_intercalate]
    · intro cs hcs hbreak
      obtain ⟨l, hl, rfl⟩ := List.mem_map.mp hcs
      -- a break within a line would be a control
      exact absurd (hprintable l hl _ hbreak) (by decide)
    · simp [Program.lines, Program.marks, Mark.layout]

/-- Strings do not become code. Whatever they are, the text of an inline plan over the stock
library quotes them or makes an identifier of them, and other strings give the same lines,
these literals and the identifier aside. Names need not be distinct. -/
theorem Plan.strings_stay_quoted {set : ParameterSet σ} {o : Options σ}
    (hstock : ∀ c ∈ (make set o).capabilities, ∃ e : TypeExpr σ, e.build = .ok c)
    (hinline : (make set o).strategy = .inline) :
    ∃ g, (make set o).program = .ok g ∧ g.Confines (make set o).vocabulary ∧
      ∀ (set' : ParameterSet σ) (o' : Options σ), Forall₂ ParameterSpec.Respelled set.specs set'.specs →
        o.Respelled o' → (make set' o').strategy = .inline ∧ ∃ g', (make set' o').program = .ok g' ∧
          g'.Confines (make set' o').vocabulary ∧
          Forall₂ (Line.Alike (make set o).vocabulary (make set' o').vocabulary) g.lines g'.lines := by
  obtain ⟨g, hg⟩ := exists_program (inline_of_strategy hinline).2
  obtain ⟨_, _, hself⟩ := (alike_self hstock).program hg
  refine ⟨g, hg, hself.confines, fun set' o' hset ho => ?_⟩
  have hplans := alike_make hset ho
  obtain ⟨g', hg', halike⟩ := hplans.program hg
  obtain ⟨_, _, hself'⟩ := (alike_self (stock_of_respelled hset ho)).program hg'
  exact ⟨(hplans.strategy ho.codegen).symm.trans hinline, g', hg', hself'.confines, halike.lines⟩

/-! ## A hostile spelling -/

/-- One parameter, which is one of two strings or null, of a validator with a name. -/
structure Choice where
  validator : String
  parameter : String
  first : String
  second : String

namespace Choice

def type (x : Choice) : TypeExpr Unit := .enumOf 0 [.text x.first, .text x.second, .null] none

def set (x : Choice) (c : Capability Unit) : ParameterSet Unit :=
  ⟨[{ name := x.parameter, position := 0, type := c, required := .bool true, default := .none }]⟩

def options (x : Choice) : Options Unit := { Options.standard with name := x.validator }

/-- Strings that would close a literal, a line or a call where they stood as they are. -/
def hostile : Choice where
  validator := "x() \x7b\x7d; evil"
  parameter := "\"] = 0; evil(); //\n"
  first := "\\"
  second := "\" || evil() || \""

def plain : Choice := ⟨"paint", "color", "red", "green"⟩

theorem respelled (x y : Choice) : x.type.Respelled y.type :=
  .enumOf _ _ _ _ (.cons (.text _ _) (.cons (.text _ _) (.cons (.same _) .nil)))

end Choice

theorem Plan.strings_stay_quoted_hostile : ∃ c d : Capability Unit,
    Choice.hostile.type.build = .ok c ∧ Choice.plain.type.build = .ok d ∧
    ∃ g g', (make (Choice.hostile.set c) Choice.hostile.options).program = .ok g ∧
      (make (Choice.plain.set d) Choice.plain.options).program = .ok g' ∧
      g.Confines (make (Choice.hostile.set c) Choice.hostile.options).vocabulary ∧
      Forall₂ (Line.Alike (make (Choice.hostile.set c) Choice.hostile.options).vocabulary
        (make (Choice.plain.set d) Choice.plain.options).vocabulary) g.lines g'.lines := by
  obtain ⟨c, hc⟩ := TypeExpr.exists_build Choice.hostile.type rfl
  obtain ⟨d, hd⟩ := TypeExpr.exists_build Choice.plain.type rfl
  have hform : c.inline?.isSome = true := (TypeExpr.inline_form_agrees _ hc).1.mpr rfl
  have hstock : ∀ t ∈ (make (Choice.hostile.set c) Choice.hostile.options).capabilities,
      ∃ e : TypeExpr Unit, e.build = .ok t := by
    intro t ht
    rw [List.mem_singleton.mp (show t ∈ [c] from ht)]
    exact ⟨_, hc⟩
  have hinline : (make (Choice.hostile.set c) Choice.hostile.options).strategy = .inline :=
    strategy_eq_inline.mpr ⟨rfl, List.forall_mem_singleton.mpr hform, rfl⟩
  obtain ⟨g, hg, hconfines, hother⟩ := strings_stay_quoted hstock hinline
  obtain ⟨-, g', hg', -, halike⟩ := hother (Choice.plain.set d) Choice.plain.options
    (.cons ⟨rfl, rfl, .none, _, _, Choice.respelled _ _, hc, hd⟩ .nil) ⟨rfl, rfl, rfl, rfl, .off⟩
  exact ⟨c, d, hc, hd, g, g', hg, hg', hconfines, halike⟩

end ArgGuard
