/-
  ArgGuard.Proofs.Descriptor — when two requests are described alike.

  A description depends on the state of the process only by the numbers of the entities that
  the request mentions (`described`), and describing gives all of them numbers
  (`view_numbers`), after which there is a text unless a flag is a value without one
  (`describe_error`, `describe_ok`). Where those numbers tell the entities apart, each field
  of a description can be read off the canonical text, so the texts of two requests are equal
  exactly if the requests are the same up to logging (`canonical_eq_iff`), whenever in the
  run of the process each was described.
-/

import ArgGuard.Descriptor
import ArgGuard.Proofs.Canonical
import ArgGuard.Proofs.Surroundings

namespace ArgGuard

variable {σ : Type}

/-! ## Requests that are the same -/

namespace Value

/-- Values that hold no other. -/
def isPrimitive : Value → Bool
  | .function .. => false
  | .list _ => false
  | .object .. => false
  | _ => true

/-- Sameness of primitive values: a NaN is itself, the zeros differ, and symbols are the same
by identity. -/
def same : Value → Value → Bool
  | .undefined, .undefined => true
  | .null, .null => true
  | .bool a, .bool b => a == b
  | .number x, .number y => x == y
  | .text s, .text t => s == t
  | .bigint m, .bigint n => m == n
  | .symbol s, .symbol t => s.id == t.id
  | _, _ => false

example : same (.number .zero) (.number Number.zero.neg) = false ∧ same (.number .nan) (.number .nan) = true := by decide

end Value

/-- Both none, the same static value, or the same factory. -/
def Default.Same : Default σ → Default σ → Prop
  | .none, .none => True
  | .value v, .value w => v.same w = true
  | .factory f _, .factory g _ => f = g
  | _, _ => False

structure ParameterSpec.Same (p q : ParameterSpec σ) : Prop where
  name : p.name = q.name
  required : p.required = q.required
  type : p.type.id = q.type.id
  default : p.default.Same q.default

/-- The same boolean, or the same capability. -/
def Slurpy.Same : Slurpy σ → Slurpy σ → Prop
  | .off, .off => True
  | .on, .on => True
  | .checked c, .checked d => c.id = d.id
  | _, _ => False

/-- Sets of pairwise the same parameters under the same options, logging aside. -/
structure Validator.Same (set : ParameterSet σ) (o : Options σ) (set' : ParameterSet σ) (o' : Options σ) : Prop where
  size : set.size = set'.size
  specs : ∀ (i : Nat) p q, set.at? i = some p → set'.at? i = some q → p.Same q
  sourceMode : o.sourceMode = o'.sourceMode
  outputMode : o.outputMode = o'.outputMode
  strict : o.strict = o'.strict
  slurpy : o.slurpy.Same o'.slurpy
  name : o.name = o'.name
  codegen : o.codegen = o'.codegen

/-! ## Descriptions -/

/-- The entities that a description gives by number. -/
def Value.entities : Value → List Entity
  | .symbol s => [.symbol s.id]
  | _ => []

namespace Default

def entities : Default σ → List Entity
  | .none => []
  | .value v => v.entities
  | .factory f _ => [.function f]

end Default

def ParameterSpec.entities (p : ParameterSpec σ) : List Entity := .object p.type.id :: p.default.entities

def Slurpy.entities : Slurpy σ → List Entity
  | .checked c => [.object c.id]
  | _ => []

def Validator.entities (set : ParameterSet σ) (o : Options σ) : List Entity :=
  set.specs.flatMap (·.entities) ++ o.slurpy.entities

namespace Descriptor

variable (num : Entity → Nat)

/-- A static default, given the numbers of the entities. -/
def describedValue (own? : Option String) : Value → Value
  | .null => .record [("kind", .text "null")]
  | .symbol s => .record [("kind", .text "symbol"), ("id", .nat (num (.symbol s.id)))]
  | v => .record [("kind", .text v.typeName), ("value", .text ((content? own? v).getD ""))]

def describedDefault (own? : Option String) : Default σ → Value
  | .none => .null
  | .value v => .record [("value", describedValue num own? v)]
  | .factory f _ => .record [("factory", .nat (num (.function f)))]

def describedType (c : Capability σ) : Value := .record [("name", .text c.name), ("id", .nat (num (.object c.id)))]

def describedSpec (told : Told) (p : ParameterSpec σ) : Value :=
  .record [("name", .text p.name), ("position", .nat p.position), ("required", p.required),
    ("type", describedType num p.type), ("default", describedDefault num (told.find? p.name) p.default)]

def describedSlurpy : Slurpy σ → Value
  | .off => .bool false
  | .on => .bool true
  | .checked c => describedType num c

/-- What a set with its options is described by, given the numbers of the entities. -/
def described (set : ParameterSet σ) (o : Options σ) (told : Told := []) : Value :=
  .record [("parameters", .ofItems (set.specs.map (describedSpec num told))), ("sourceMode", .text o.sourceMode.text),
    ("outputMode", .text o.outputMode.text), ("strict", .bool o.strict), ("slurpy", describedSlurpy num o.slurpy),
    ("name", .text o.name), ("codegen", .bool o.codegen)]

end Descriptor

/-! ## Describing gives numbers -/

namespace Identities

/-- The number of an entity, zero for one that has none. -/
def numberOf (t : Identities) (e : Entity) : Nat := (t.find? e).getD 0

theorem numberOf_lt {u : Identities} (hu : u.Sound) (hexact : u.next ≤ 2 ^ 53) (e : Entity) : u.numberOf e < 2 ^ 53 := by
  unfold numberOf
  cases hn : u.find? e with
  | none => decide
  | some n => exact Nat.lt_of_lt_of_le (hu.below e n hn) hexact

def Knows (t : Identities) (es : List Entity) : Prop := ∀ e ∈ es, (t.find? e).isSome = true

theorem Knows.append {t : Identities} {es es' : List Entity} (h : t.Knows es) (h' : t.Knows es') : t.Knows (es ++ es') :=
  fun e he => (List.mem_append.mp he).elim (h e) (h' e)

/-- A step on a table that numbers entities and comes to what their numbers make of it, in
whatever table the process comes to later. -/
structure Numbers {α : Type} (t : Identities) (r : α × Identities) (es : List Entity) (view : (Entity → Nat) → α) :
    Prop where
  grows : Grows t r.2
  knows : ∀ u, Grows r.2 u → u.Knows es
  result : ∀ u, Grows r.2 u → r.1 = view u.numberOf

theorem numbers_refl {α : Type} (t : Identities) (a : α) : Numbers t (a, t) [] fun _ => a where
  grows := .refl t
  knows _ _ _ he := absurd he List.not_mem_nil
  result _ _ := rfl

theorem numbers_number (t : Identities) (e : Entity) : Numbers t (t.number e) [e] fun num => num e where
  grows := grows_number t e
  knows u h e' he := by
    rw [List.mem_singleton.mp he, find?_grows h (find?_number_self t e)]
    rfl
  result u h := by rw [numberOf, find?_grows h (find?_number_self t e), Option.getD_some]

/-- One step after another. -/
theorem Numbers.andThen {α β γ : Type} {t : Identities} {r : α × Identities} {r' : β × Identities} {es es' : List Entity}
    {view : (Entity → Nat) → α} {view' : (Entity → Nat) → β} (h : Numbers t r es view) (h' : Numbers r.2 r' es' view')
    (f : α → β → γ) : Numbers t (f r.1 r'.1, r'.2) (es ++ es') fun num => f (view num) (view' num) where
  grows := h.grows.trans h'.grows
  knows u hu := (h.knows u (h'.grows.trans hu)).append (h'.knows u hu)
  result u hu := by
    show f r.1 r'.1 = _
    rw [← h.result u (h'.grows.trans hu), ← h'.result u hu]

theorem Numbers.map {α β : Type} {t : Identities} {r : α × Identities} {es : List Entity} {view : (Entity → Nat) → α}
    (h : Numbers t r es view) (f : α → β) : Numbers t (f r.1, r.2) es fun num => f (view num) where
  grows := h.grows
  knows := h.knows
  result u hu := congrArg f (h.result u hu)

end Identities

/-- Sets whose static defaults hold no other value. -/
def ParameterSet.StaticsPrimitive (set : ParameterSet σ) : Prop :=
  ∀ p ∈ set.specs, ∀ v, p.default = .value v → v.isPrimitive = true

/-- A static default has a text: it holds no other value, or is a function that told its own. -/
def Default.Spells (own? : Option String) (d : Default σ) : Prop :=
  ∀ v, d = .value v → v.isPrimitive = true ∨ v.isFunction = true ∧ own?.isSome = true

/-- All static defaults of a set have texts. -/
def Descriptor.Told.Covers (told : Told) (set : ParameterSet σ) : Prop :=
  ∀ p ∈ set.specs, p.default.Spells (told.find? p.name)

theorem ParameterSet.StaticsPrimitive.covers {set : ParameterSet σ} (h : set.StaticsPrimitive) (told : Descriptor.Told) :
    told.Covers set := fun p hp v hv => .inl (h p hp v hv)

namespace Descriptor

open Identities

theorem describeValue_numbers (t : Identities) {own? : Option String} {v : Value}
    (h : v.isPrimitive = true ∨ v.isFunction = true ∧ own?.isSome = true) :
    Numbers t (describeValue t own? v) v.entities fun num => .ok (describedValue num own? v) := by
  cases v with
  | symbol s =>
    exact (numbers_number t (.symbol s.id)).map fun n =>
      Except.ok (Value.record [("kind", .text "symbol"), ("id", .nat n)])
  | function f members =>
    obtain ⟨s, rfl⟩ := Option.isSome_iff_exists.mp (h.resolve_left Bool.false_ne_true).2
    exact numbers_refl t _
  | undefined => cases own? <;> exact numbers_refl t _
  | bool _ => cases own? <;> exact numbers_refl t _
  | text _ => cases own? <;> exact numbers_refl t _
  | bigint _ => cases own? <;> exact numbers_refl t _
  | null => exact numbers_refl t _
  | number _ => exact numbers_refl t _
  | list _ => cases h <;> simp_all [Value.isPrimitive, Value.isFunction]
  | object _ _ _ _ _ => cases h <;> simp_all [Value.isPrimitive, Value.isFunction]

theorem describeDefault_numbers (t : Identities) {own? : Option String} {d : Default σ} (h : d.Spells own?) :
    Numbers t (describeDefault t own? d) d.entities fun num => .ok (describedDefault num own? d) := by
  cases d with
  | none => exact numbers_refl t _
  | value v => exact (describeValue_numbers t (h v rfl)).map fun r => r.map fun d => Value.record [("value", d)]
  | factory f make =>
    exact (numbers_number t (.function f)).map fun n => Except.ok (Value.record [("factory", .nat n)])

theorem describeType_numbers (t : Identities) (c : Capability σ) :
    Numbers t (describeType t c) [.object c.id] fun num => describedType num c :=
  (numbers_number t (.object c.id)).map fun n => Value.record [("name", .text c.name), ("id", .nat n)]

theorem describeSpec_numbers (t : Identities) {told : Told} {p : ParameterSpec σ}
    (h : p.default.Spells (told.find? p.name)) :
    Numbers t (describeSpec t told p) p.entities fun num => .ok (describedSpec num told p) :=
  (describeType_numbers t p.type).andThen (describeDefault_numbers _ h) fun type default =>
    default.map fun d => Value.record [("name", .text p.name), ("position", .nat p.position), ("required", p.required),
      ("type", type), ("default", d)]

theorem describeSpecs_numbers (t : Identities) {told : Told} {ps : List (ParameterSpec σ)}
    (h : ∀ p ∈ ps, p.default.Spells (told.find? p.name)) :
    Numbers t (describeSpecs t told ps) (ps.flatMap (·.entities)) fun num => .ok (ps.map (describedSpec num told)) := by
  induction ps generalizing t with
  | nil => exact numbers_refl t _
  | cons p ps ih =>
    have hp := describeSpec_numbers t (h p List.mem_cons_self)
    have hps := ih (describeSpec t told p).2 fun q hq => h q (List.mem_cons_of_mem _ hq)
    have hcons : describeSpecs t told (p :: ps) = ((describeSpec t told p).1.bind fun d =>
        (describeSpecs (describeSpec t told p).2 told ps).1.map (d :: ·),
          (describeSpecs (describeSpec t told p).2 told ps).2) := by
      have hok := hp.result _ (.refl _)
      rw [describeSpecs]
      generalize describeSpec t told p = r at hok
      obtain ⟨r, u⟩ := r
      simp only at hok
      rw [hok]
      rfl
    rw [hcons]
    exact hp.andThen hps fun r ds => r.bind fun d => ds.map (d :: ·)

theorem describeSlurpy_numbers (t : Identities) (x : Slurpy σ) :
    Numbers t (describeSlurpy t x) x.entities fun num => describedSlurpy num x := by
  cases x with
  | off => exact numbers_refl t _
  | on => exact numbers_refl t _
  | checked c => exact describeType_numbers t c

/-- Describing a request numbers its entities, and its description is that by their numbers. -/
theorem view_numbers (t : Identities) {set : ParameterSet σ} {told : Told} (h : told.Covers set) (o : Options σ) :
    Numbers t (view t set o told) (Validator.entities set o) fun num => .ok (described num set o told) := by
  have hps := describeSpecs_numbers t h
  have hview : view t set o told = ((describeSpecs t told set.specs).1.map fun ds =>
      Value.record [("parameters", .ofItems ds), ("sourceMode", .text o.sourceMode.text),
        ("outputMode", .text o.outputMode.text), ("strict", .bool o.strict),
        ("slurpy", (describeSlurpy (describeSpecs t told set.specs).2 o.slurpy).1),
        ("name", .text o.name), ("codegen", .bool o.codegen)],
      (describeSlurpy (describeSpecs t told set.specs).2 o.slurpy).2) := by
    have hok := hps.result _ (.refl _)
    rw [view]
    generalize describeSpecs t told set.specs = r at hok
    obtain ⟨r, u⟩ := r
    simp only at hok
    rw [hok]
    rfl
  rw [hview]
  exact hps.andThen (describeSlurpy_numbers _ o.slurpy) fun r slurpy => r.map fun ds =>
    Value.record [("parameters", .ofItems ds), ("sourceMode", .text o.sourceMode.text),
      ("outputMode", .text o.outputMode.text), ("strict", .bool o.strict), ("slurpy", slurpy),
      ("name", .text o.name), ("codegen", .bool o.codegen)]

/-! ## Descriptions can be read -/

open Canonical

/-- Numbers whose texts tell entities apart. -/
def TellsApart (num : Entity → Nat) (es es' : List Entity) : Prop :=
  ∀ e ∈ es, ∀ e' ∈ es', (Number.ofNat (num e)).text = (Number.ofNat (num e')).text → e = e'

variable {num : Entity → Nat}

theorem tree_nat {n n' : Nat} (h : tree (.nat n) = tree (.nat n')) : (Number.ofNat n).text = (Number.ofNat n').text := by
  apply String.toList_injective
  simpa [Value.nat, tree] using h

/-- Records of one tree hold the same under every key. -/
theorem lookup_eq {es es' : Entries Value} (hn : (es.map (·.1)).Nodup) (hn' : (es'.map (·.1)).Nodup)
    (h : tree (.record es) = tree (.record es')) (k : String) :
    (treeMembers es).lookup k = (treeMembers es').lookup k := by
  rw [← field?_record hn, h, field?_record hn']

/-- No other number is written like the zero with a sign. -/
theorem text_ne_negativeZero {x : Number} (h : x.isNegativeZero = false) : x.text ≠ "-0" := by
  intro htext
  have hread := Number.ofText_text h
  rw [htext] at hread
  have hzero : (Number.ofText "-0").isNegativeZero = true := by decide +kernel
  rw [hread, h] at hzero
  cases hzero

theorem eq_of_isNegativeZero {x : Number} (h : x.isNegativeZero = true) : x = .finite true .zero := by
  cases x with
  | nan => cases h
  | infinite _ => cases h
  | finite negative m =>
    cases negative with
    | false => cases h
    | true => rw [Number.eq_zero_of_isZero h]

/-- A number is known from the text it is described by, the signs of the zeros included. -/
theorem content?_number_inj {x y : Number} (h : content? none (.number x) = content? none (.number y)) : x = y := by
  simp only [content?, Option.some.injEq] at h
  cases hx : x.isNegativeZero <;> cases hy : y.isNegativeZero <;>
    simp only [hx, hy, if_true, Bool.false_eq_true, if_false] at h
  · exact Number.text_inj hx hy h
  · exact absurd h (text_ne_negativeZero hx)
  · exact absurd h.symm (text_ne_negativeZero hy)
  · rw [eq_of_isNegativeZero hx, eq_of_isNegativeZero hy]

/-- The text tells values of one type apart, null and symbols aside. -/
theorem same_of_content? {v w : Value} (hv : v.isPrimitive = true) (hw : w.isPrimitive = true) (hnull : v ≠ .null)
    (hsymbol : v.typeName ≠ "symbol") (htype : v.typeName = w.typeName)
    (h : (content? none v).getD "" = (content? none w).getD "") : v.same w = true := by
  cases v <;> cases w <;> simp only [Value.typeName, Value.isPrimitive, String.reduceEq,
    Bool.false_eq_true] at htype hv hw
  · rfl
  · exact absurd rfl hnull
  · rename_i a b
    cases a <;> cases b <;> first | rfl | exact absurd h (by decide)
  · exact beq_iff_eq.mpr (content?_number_inj (congrArg some h))
  · exact beq_iff_eq.mpr h
  · exact beq_iff_eq.mpr (Text.intText_inj h)
  · exact absurd rfl hsymbol

/-- How a static default is described: as null, as a symbol, or by type and content. -/
theorem describedValue_cases (num : Entity → Nat) (v : Value) :
    v = .null ∨ (∃ s, v = .symbol s) ∨ v ≠ .null ∧ v.typeName ≠ "symbol" ∧
      describedValue num none v = .record [("kind", .text v.typeName), ("value", .text ((content? none v).getD ""))] := by
  cases v with
  | null => exact .inl rfl
  | symbol s => exact .inr (.inl ⟨s, rfl⟩)
  | _ => exact .inr (.inr ⟨by simp, by simp [Value.typeName], rfl⟩)

theorem describedValue_inj {v w : Value} (hv : v.isPrimitive = true) (hw : w.isPrimitive = true)
    (hnum : TellsApart num v.entities w.entities)
    (h : tree (describedValue num none v) = tree (describedValue num none w)) :
    v.same w = true := by
  rcases describedValue_cases num v with rfl | ⟨s, rfl⟩ | ⟨hnull, hsymbol, hview⟩ <;>
    rcases describedValue_cases num w with rfl | ⟨t, rfl⟩ | ⟨hnull', hsymbol', hview'⟩
  · rfl
  · have hid : none = some _ := lookup_eq (by simp) (by simp) h "id"
    cases hid
  · rw [hview'] at h
    have hvalue : none = some _ := lookup_eq (by simp) (by simp) h "value"
    cases hvalue
  · have hid : some _ = none := lookup_eq (by simp) (by simp) h "id"
    cases hid
  · have hid : some _ = some _ := lookup_eq (by simp) (by simp) h "id"
    have heq := hnum _ (List.mem_singleton_self _) _ (List.mem_singleton_self _) (tree_nat (Option.some.inj hid))
    exact beq_iff_eq.mpr (Entity.symbol.inj heq)
  · rw [hview'] at h
    have hvalue : none = some _ := lookup_eq (by simp) (by simp) h "value"
    cases hvalue
  · rw [hview] at h
    have hvalue : some _ = none := lookup_eq (by simp) (by simp) h "value"
    cases hvalue
  · rw [hview] at h
    have hvalue : some _ = none := lookup_eq (by simp) (by simp) h "value"
    cases hvalue
  · rw [hview, hview'] at h
    have hkind : some (Json.text _) = some (.text _) := lookup_eq (by simp) (by simp) h "kind"
    have hvalue : some (Json.text _) = some (.text _) := lookup_eq (by simp) (by simp) h "value"
    exact same_of_content? hv hw hnull hsymbol (by simpa using hkind) (by simpa using hvalue)

theorem describedDefault_inj {d d' : Default σ} (hd : ∀ v, d = .value v → v.isPrimitive = true)
    (hd' : ∀ v, d' = .value v → v.isPrimitive = true) (hnum : TellsApart num d.entities d'.entities)
    (h : tree (describedDefault num none d) = tree (describedDefault num none d')) : d.Same d' := by
  cases d with
  | none =>
    cases d' with
    | none => trivial
    | value _ => cases h
    | factory _ _ => cases h
  | value v =>
    cases d' with
    | none => cases h
    | value w =>
      have hvalue : some _ = some _ := lookup_eq (by simp) (by simp) h "value"
      exact describedValue_inj (hd v rfl) (hd' w rfl) hnum (Option.some.inj hvalue)
    | factory f _ =>
      have hvalue : some _ = none := lookup_eq (by simp) (by simp) h "value"
      cases hvalue
  | factory f _ =>
    cases d' with
    | none => cases h
    | value w =>
      have hvalue : none = some _ := lookup_eq (by simp) (by simp) h "value"
      cases hvalue
    | factory g _ =>
      have hfactory : some _ = some _ := lookup_eq (by simp) (by simp) h "factory"
      cases hnum _ (List.mem_singleton_self _) _ (List.mem_singleton_self _) (tree_nat (Option.some.inj hfactory))
      rfl

theorem describedType_inj {c c' : Capability σ} (hnum : TellsApart num [.object c.id] [.object c'.id])
    (h : tree (describedType num c) = tree (describedType num c')) : c.id = c'.id := by
  have hid : some _ = some _ := lookup_eq (by simp) (by simp) h "id"
  exact Entity.object.inj
    (hnum _ (List.mem_singleton_self _) _ (List.mem_singleton_self _) (tree_nat (Option.some.inj hid)))

theorem TellsApart.mono {es es' fs fs' : List Entity} (h : TellsApart num es es') (hf : ∀ e ∈ fs, e ∈ es)
    (hf' : ∀ e ∈ fs', e ∈ es') : TellsApart num fs fs' := fun e he e' he' => h e (hf e he) e' (hf' e' he')

theorem describedSpec_inj {p q : ParameterSpec σ} (hp : ∀ v, p.default = .value v → v.isPrimitive = true)
    (hq : ∀ v, q.default = .value v → v.isPrimitive = true) {b c : Bool} (hb : p.required = .bool b)
    (hc : q.required = .bool c) (hnum : TellsApart num p.entities q.entities)
    (h : tree (describedSpec num [] p) = tree (describedSpec num [] q)) : p.Same q := by
  have hname : some (Json.text _) = some (.text _) := lookup_eq (by simp) (by simp) h "name"
  have hrequired : some (tree p.required) = some (tree q.required) := lookup_eq (by simp) (by simp) h "required"
  have htype : some _ = some _ := lookup_eq (by simp) (by simp) h "type"
  have hdefault : some _ = some _ := lookup_eq (by simp) (by simp) h "default"
  rw [hb, hc] at hrequired
  refine ⟨by simpa using hname, ?_, ?_, ?_⟩
  · rw [hb, hc, show b = c by simpa [tree] using hrequired]
  · exact describedType_inj (hnum.mono (by simp [ParameterSpec.entities]) (by simp [ParameterSpec.entities]))
      (Option.some.inj htype)
  · exact describedDefault_inj hp hq (hnum.mono (fun _ => List.mem_cons_of_mem _) fun _ => List.mem_cons_of_mem _)
      (Option.some.inj hdefault)

theorem describedSlurpy_inj {x y : Slurpy σ} (hnum : TellsApart num x.entities y.entities)
    (h : tree (describedSlurpy num x) = tree (describedSlurpy num y)) : x.Same y := by
  cases x <;> cases y <;> first | trivial | cases h | exact describedType_inj hnum h

theorem sourceMode_text_inj {m m' : SourceMode} (h : m.text = m'.text) : m = m' := by
  cases m <;> cases m' <;> first | rfl | simp [SourceMode.text] at h

theorem outputMode_text_inj {m m' : OutputMode} (h : m.text = m'.text) : m = m' := by
  cases m <;> cases m' <;> first | rfl | simp [OutputMode.text] at h

/-- Requests that are described alike are the same. -/
theorem described_inj {set set' : ParameterSet σ} {o o' : Options σ} (hs : set.StaticsPrimitive)
    (hs' : set'.StaticsPrimitive) (hf : set.FlagsBoolean) (hf' : set'.FlagsBoolean)
    (hnum : TellsApart num (Validator.entities set o) (Validator.entities set' o'))
    (h : tree (described num set o) = tree (described num set' o')) : Validator.Same set o set' o' := by
  have hparameters : some (tree (.ofItems _)) = some (tree (.ofItems _)) :=
    lookup_eq (by simp) (by simp) h "parameters"
  have hsource : some (Json.text _) = some (.text _) := lookup_eq (by simp) (by simp) h "sourceMode"
  have houtput : some (Json.text _) = some (.text _) := lookup_eq (by simp) (by simp) h "outputMode"
  have hstrict : some (Json.bool _) = some (.bool _) := lookup_eq (by simp) (by simp) h "strict"
  have hslurpy : some _ = some _ := lookup_eq (by simp) (by simp) h "slurpy"
  have hname : some (Json.text _) = some (.text _) := lookup_eq (by simp) (by simp) h "name"
  have hcodegen : some (Json.bool _) = some (.bool _) := lookup_eq (by simp) (by simp) h "codegen"
  have hspecs : set.specs.map (fun p => tree (describedSpec num [] p)) =
      set'.specs.map fun p => tree (describedSpec num [] p) := by
    simpa [tree_ofItems, Function.comp_def] using hparameters
  refine ⟨?_, fun i p q hp hq => ?_, sourceMode_text_inj (by simpa using hsource),
    outputMode_text_inj (by simpa using houtput), by simpa using hstrict, ?_, by simpa using hname,
    by simpa using hcodegen⟩
  · simpa [ParameterSet.size] using congrArg List.length hspecs
  · have hmem := List.mem_of_getElem? hp
    have hmem' := List.mem_of_getElem? hq
    have htree : tree (describedSpec num [] p) = tree (describedSpec num [] q) := by
      have := congrArg (·[i]?) hspecs
      simp only [ParameterSet.at?] at hp hq
      simpa [List.getElem?_map, hp, hq] using this
    obtain ⟨b, hb⟩ := hf p hmem
    obtain ⟨c, hc⟩ := hf' q hmem'
    refine describedSpec_inj (hs p hmem) (hs' q hmem') hb hc (hnum.mono ?_ ?_) htree
    · exact fun e he => List.mem_append_left _ (List.mem_flatMap.mpr ⟨p, hmem, he⟩)
    · exact fun e he => List.mem_append_left _ (List.mem_flatMap.mpr ⟨q, hmem', he⟩)
  · exact describedSlurpy_inj (hnum.mono (fun _ => List.mem_append_right _) fun _ => List.mem_append_right _)
      (Option.some.inj hslurpy)

/-! ## Canonical texts -/

section plain

variable {P : Number → Prop} (hnum : ∀ e, P (.ofNat (num e)))

include hnum

theorem plain_describedValue (own? : Option String) (v : Value) : Plain P (describedValue num own? v) := by
  cases v <;> simp [describedValue, Value.record, Value.nat, Plain, PlainMembers, hnum]

theorem plain_describedType (c : Capability σ) : Plain P (describedType num c) :=
  ⟨trivial, hnum _, trivial⟩

theorem plain_describedDefault (own? : Option String) (d : Default σ) : Plain P (describedDefault num own? d) := by
  cases d with
  | none => trivial
  | value v => exact ⟨plain_describedValue hnum own? v, trivial⟩
  | factory f _ => exact ⟨hnum _, trivial⟩

theorem plain_describedSpec (told : Told) {p : ParameterSpec σ} (hp : P (.ofNat p.position)) {b : Bool}
    (hb : p.required = .bool b) : Plain P (describedSpec num told p) := by
  rw [describedSpec, hb]
  exact ⟨trivial, hp, trivial, plain_describedType hnum p.type, plain_describedDefault hnum _ p.default, trivial⟩

theorem plain_describedSlurpy (x : Slurpy σ) : Plain P (describedSlurpy num x) := by
  cases x with
  | off => trivial
  | on => trivial
  | checked c => exact plain_describedType hnum c

theorem plain_described {set : ParameterSet σ} (hp : ∀ p ∈ set.specs, P (.ofNat p.position)) (hf : set.FlagsBoolean)
    (o : Options σ) (told : Told) : Plain P (described num set o told) := by
  have hitems : ∀ ps : List (ParameterSpec σ), (∀ p ∈ ps, P (.ofNat p.position) ∧ ∃ b, p.required = .bool b) →
      PlainItems P ((ps.map (describedSpec num told)).map some) := by
    intro ps
    induction ps with
    | nil => exact fun _ => trivial
    | cons p ps ih =>
      intro h
      obtain ⟨hp, b, hb⟩ := h p List.mem_cons_self
      exact ⟨plain_describedSpec hnum told hp hb, ih fun q hq => h q (List.mem_cons_of_mem _ hq)⟩
  exact ⟨hitems set.specs fun p hm => ⟨hp p hm, hf p hm⟩, trivial, trivial, trivial,
    plain_describedSlurpy hnum o.slurpy, trivial, trivial, trivial⟩

end plain

theorem not_error_of_plain {v : Value} (hv : Plain (fun x => x.isFinite = true) v) {e : Thrown} : text v ≠ .error e := by
  obtain ⟨c, hc⟩ := text_ok v hv
  rw [hc]
  exact fun h => nomatch h

section finite

variable (hnum : ∀ e, (Number.ofNat (num e)).isFinite = true)

include hnum

/-- All of a parameter's description has a text but for a flag that has none. -/
theorem text_describedSpec_error {told : Told} {p : ParameterSpec σ} (hp : (Number.ofNat p.position).isFinite = true)
    {e : Thrown} (h : text (describedSpec num told p) = .error e) : text p.required = .error e := by
  obtain ⟨m, hm, hmember⟩ := text_record_error h
  simp only [List.mem_cons, List.not_mem_nil, or_false] at hm
  rcases hm with rfl | rfl | rfl | rfl | rfl
  · cases hmember
  · exact absurd hmember (not_error_of_plain (v := .nat p.position) hp)
  · exact hmember
  · exact absurd hmember (not_error_of_plain (plain_describedType hnum p.type))
  · exact absurd hmember (not_error_of_plain (plain_describedDefault hnum _ p.default))

theorem text_described_error {set : ParameterSet σ} (hp : ∀ p ∈ set.specs, (Number.ofNat p.position).isFinite = true)
    {o : Options σ} {told : Told} {e : Thrown} (h : text (described num set o told) = .error e) :
    ∃ p ∈ set.specs, text p.required = .error e := by
  obtain ⟨m, hm, hmember⟩ := text_record_error h
  simp only [List.mem_cons, List.not_mem_nil, or_false] at hm
  rcases hm with rfl | rfl | rfl | rfl | rfl | rfl | rfl
  · obtain ⟨v, hv, hspec⟩ := text_ofItems_error hmember
    obtain ⟨p, hm, rfl⟩ := List.mem_map.mp hv
    exact ⟨p, hm, text_describedSpec_error hnum (hp p hm) hspec⟩
  · cases hmember
  · cases hmember
  · cases hmember
  · exact absurd hmember (not_error_of_plain (plain_describedSlurpy hnum o.slurpy))
  · cases hmember
  · cases hmember

end finite

theorem describe_snd (t : Identities) (set : ParameterSet σ) (o : Options σ) (told : Told) :
    (describe t set o told).2 = (view t set o told).2 := by
  unfold describe
  rcases view t set o told with ⟨_ | _, _⟩ <;> rfl

/-- A descriptor is made from the description by the numbers of a later table. -/
theorem describe_fst {t u : Identities} {set : ParameterSet σ} {o : Options σ} {told : Told} (hs : told.Covers set)
    (hu : Grows (describe t set o told).2 u) : (describe t set o told).1 = ofValue (described u.numberOf set o told) := by
  rw [describe_snd] at hu
  have hok := (view_numbers t hs o).result u hu
  unfold describe
  generalize view t set o told = r at hok
  obtain ⟨r, t'⟩ := r
  simp only at hok
  rw [hok]

/-- The canonical text of a descriptor is that of the description by numbers. -/
theorem canonical_of_describe {t u : Identities} {set : ParameterSet σ} {o : Options σ} {told : Told}
    {d : Descriptor} (hs : told.Covers set) (h : (describe t set o told).1 = .ok d)
    (hu : Grows (describe t set o told).2 u) :
    text (described u.numberOf set o told) = .ok d.canonical ∧ u.Knows (Validator.entities set o) := by
  refine ⟨?_, (view_numbers t hs o).knows u (describe_snd t set o told ▸ hu)⟩
  rw [describe_fst hs hu] at h
  simp only [ofValue, bind, Except.bind] at h
  split at h
  · cases h
  · rename_i canonical htext
    cases h
    exact htext

/-- While numbers are counted exactly, a request has a descriptor unless one of its flags has
no text. -/
theorem describe_error {t : Identities} {set : ParameterSet σ} {o : Options σ} {told : Told} {e : Thrown}
    (hs : told.Covers set) (hp : ∀ p ∈ set.specs, p.position < 2 ^ 53) (ht : t.Sound)
    (hexact : (describe t set o told).2.next ≤ 2 ^ 53) (h : (describe t set o told).1 = .error e) :
    ∃ p ∈ set.specs, text p.required = .error e := by
  have hfinite : ∀ n, n < 2 ^ 53 → (Number.ofNat n).isFinite = true := by
    intro n hn
    obtain ⟨m, hm, _⟩ := Number.ofNat_exact hn
    rw [hm]
    rfl
  have hsound : (describe t set o told).2.Sound :=
    sound_grows (describe_snd t set o told ▸ (view_numbers t hs o).grows) ht
  rw [describe_fst hs (.refl _)] at h
  simp only [ofValue, bind, Except.bind] at h
  split at h
  · rename_i htext
    cases h
    exact text_described_error (fun e => hfinite _ (numberOf_lt hsound hexact e)) (fun p hm => hfinite _ (hp p hm)) htext
  · cases h

theorem describe_ok {t : Identities} {set : ParameterSet σ} {o : Options σ} {told : Told} (hs : told.Covers set)
    (hf : set.FlagsBoolean) (hp : ∀ p ∈ set.specs, p.position < 2 ^ 53) (ht : t.Sound)
    (hexact : (describe t set o told).2.next ≤ 2 ^ 53) : ∃ d, (describe t set o told).1 = .ok d := by
  cases h : (describe t set o told).1 with
  | ok d => exact ⟨d, rfl⟩
  | error e =>
    obtain ⟨p, hm, hrequired⟩ := describe_error hs hp ht hexact h
    obtain ⟨b, hb⟩ := hf p hm
    rw [hb] at hrequired
    cases hrequired

/-- Texts of requests that were described in one run of a process are equal only if the
requests are the same. -/
theorem same_of_canonical {t t' u : Identities} {set set' : ParameterSet σ} {o o' : Options σ} {d d' : Descriptor}
    (hs : set.StaticsPrimitive) (hs' : set'.StaticsPrimitive) (hf : set.FlagsBoolean) (hf' : set'.FlagsBoolean)
    (hd : (describe t set o).1 = .ok d) (hd' : (describe t' set' o').1 = .ok d') (hu : Grows (describe t set o).2 u)
    (hu' : Grows (describe t' set' o').2 u)
    (hnum : ∀ es es', u.Knows es → u.Knows es' → TellsApart u.numberOf es es') (h : d.canonical = d'.canonical) :
    Validator.Same set o set' o' := by
  obtain ⟨htext, hknows⟩ := canonical_of_describe (hs.covers []) hd hu
  obtain ⟨htext', hknows'⟩ := canonical_of_describe (hs'.covers []) hd' hu'
  rw [← h] at htext'
  exact described_inj hs hs' hf hf' (hnum _ _ hknows hknows')
    (tree_eq_of_text (P := fun _ => True) (plain_described (fun _ => trivial) (fun _ _ => trivial) hf o [])
      (plain_described (fun _ => trivial) (fun _ _ => trivial) hf' o' []) htext htext')

/-! ## Asking for texts -/

section asking

open Call Surroundings

variable {env : Surroundings σ}

theorem grows_describeSpec (t : Identities) (told : Told) (p : ParameterSpec σ) :
    Grows t (describeSpec t told p).2 := by
  have hvalue : ∀ (t : Identities) (own? : Option String) (v : Value), Grows t (describeValue t own? v).2 := by
    intro t own? v
    unfold describeValue
    split
    · exact .refl t
    · exact grows_number t _
    · split <;> exact .refl t
  have hdefault : ∀ (t : Identities) (own? : Option String) (d : Default σ), Grows t (describeDefault t own? d).2 := by
    intro t own? d
    cases d with
    | none => exact .refl t
    | value v => exact hvalue t own? v
    | factory f make => exact grows_number t _
  exact (grows_number t _).trans (hdefault _ _ _)

theorem advances_askDefaults (hk : env.Keeps) (ps : List (ParameterSpec σ)) :
    Moves env.Advances (askDefaults env ps) := by
  induction ps with
  | nil => exact .pure advances_refl _
  | cons p ps ih =>
    refine advances_bind (advances_onIdentities hk fun t => grows_describeSpec t [] p) fun _ => ?_
    split
    · exact advances_bind (advances_textOf hk _) fun _ => advances_bind ih fun _ => .pure advances_refl _
    · exact ih

/-- Every static default that is a function has told its text. -/
theorem told_of_askDefaults {ps : List (ParameterSpec σ)} {told : Told} (h : Returns (askDefaults env ps) told) :
    ∀ p ∈ ps, ∀ v, p.default = .value v → v.isFunction = true → (told.find? p.name).isSome = true := by
  induction ps generalizing told with
  | nil => exact fun _ hp => absurd hp List.not_mem_nil
  | cons q ps ih =>
    obtain ⟨_, _, h⟩ := returns_bind h
    intro p hp v hv hfunction
    split at h
    · obtain ⟨text, _, h⟩ := returns_bind h
      obtain ⟨rest, hrest, h⟩ := returns_bind h
      rw [returns_pure h, Entries.find?]
      split
      · rfl
      · rename_i hne
        rcases List.mem_cons.mp hp with rfl | hp
        · exact absurd rfl hne
        · exact ih hrest p hp v hv hfunction
    · rename_i hstatic
      rcases List.mem_cons.mp hp with rfl | hp
      · cases v with
        | function f own => exact absurd hv (hstatic f own)
        | _ => cases hfunction
      · exact ih h p hp v hv hfunction

/-- The static defaults of a set that was read have texts once they were asked. -/
theorem covers_of_askDefaults {set : ParameterSet σ} (hset : set.Declared env) {told : Told}
    (h : Returns (askDefaults env set.specs) told) : told.Covers set := by
  intro p hp v hv
  obtain ⟨hobject, hlist, _⟩ := (ParameterSet.sound_of_mem hset hp).static v hv
  cases v with
  | function f own => exact .inr ⟨rfl, told_of_askDefaults h p hp _ hv rfl⟩
  | list _ => cases hlist
  | object _ _ _ _ _ => cases hobject
  | _ => exact .inl rfl

/-- Asking stops where a static default is a function that does not tell its text. -/
theorem stops_askDefaults {ps : List (ParameterSpec σ)} {t : Thrown} (h : Stops (askDefaults env ps) t) :
    ∃ p ∈ ps, ∃ f own, p.default = .value (.function f own) ∧ Stops (env.textOf (.function f own)) t := by
  induction ps with
  | nil => exact absurd h not_stops_pure
  | cons p ps ih =>
    have hrest : Stops (askDefaults env ps) t →
        ∃ q ∈ p :: ps, ∃ f own, q.default = .value (.function f own) ∧ Stops (env.textOf (.function f own)) t := by
      intro hps
      obtain ⟨q, hq, hstops⟩ := ih hps
      exact ⟨q, List.mem_cons_of_mem _ hq, hstops⟩
    rcases stops_bind h with h | ⟨_, _, h⟩
    · obtain ⟨_, h⟩ := h
      cases h
    split at h
    · rename_i f own hd
      rcases stops_bind h with h | ⟨_, _, h⟩
      · exact ⟨p, List.mem_cons_self, f, own, hd, h⟩
      rcases stops_bind h with h | ⟨_, _, h⟩
      · exact hrest h
      · exact absurd h not_stops_pure
    · exact hrest h

/-- Where no static default is a function, none is asked. -/
theorem told_of_primitive {ps : List (ParameterSpec σ)} (hs : ∀ p ∈ ps, ∀ v, p.default = .value v → v.isPrimitive = true)
    {told : Told} (h : Returns (askDefaults env ps) told) : told = [] := by
  induction ps with
  | nil => exact returns_pure h
  | cons p ps ih =>
    obtain ⟨_, _, h⟩ := returns_bind h
    split at h
    · rename_i f own hd
      cases hs p List.mem_cons_self _ hd
    · exact ih (fun q hq => hs q (List.mem_cons_of_mem _ hq)) h

/-- A request is described at a table between two states, by the texts that were told. -/
theorem start_ofRequest_eq_ok (hk : env.Keeps) {set : ParameterSet σ} {o : Options σ} {d : Descriptor} {s s' : σ}
    (h : start (ofRequest env set o) s = (.ok d, s')) : ∃ told s₁, start (askDefaults env set.specs) s = (.ok told, s₁) ∧
      (describe (env.identities s₁) set o told).1 = .ok d ∧
      (describe (env.identities s₁) set o told).2 = env.identities s' := by
  obtain ⟨told, s₁, hasked, h⟩ := start_bind_eq_ok h
  refine ⟨told, s₁, hasked, congrArg Prod.fst h, ?_⟩
  rw [← hk.stored (describe (env.identities s₁) set o told).2 s₁]
  exact congrArg env.identities (congrArg Prod.snd h)

end asking

end Descriptor

namespace Identities

/-- Numbers of a table that counts exactly tell the entities apart that it knows. -/
theorem tellsApart {u : Identities} (hu : u.Sound) (hexact : u.next ≤ 2 ^ 53) {es es' : List Entity} (h : u.Knows es)
    (h' : u.Knows es') : Descriptor.TellsApart u.numberOf es es' := by
  intro e he e' he' htext
  obtain ⟨n, hn⟩ := Option.isSome_iff_exists.mp (h e he)
  obtain ⟨n', hn'⟩ := Option.isSome_iff_exists.mp (h' e' he')
  have hbelow := hu.below e n hn
  have hbelow' := hu.below e' n' hn'
  simp only [numberOf, hn, hn', Option.getD_some] at htext
  have hsame := Number.ofNat_inj (by omega) (by omega)
    (Number.text_inj (Number.isNegativeZero_ofNat n) (Number.isNegativeZero_ofNat n') htext)
  exact hu.injective e e' n hn (hsame ▸ hn')

end Identities

/-! ## The same request -/

/-- What the identities in a process belong to: a capability each, and the symbols with their
descriptions. -/
structure Inventory (σ : Type) where
  capability : Nat → Capability σ
  description : String → String

/-- Requests with boolean flags and primitive static defaults, in a process where one
identity is one thing. -/
structure Validator.Regular (env : Surroundings σ) (inv : Inventory σ) (set : ParameterSet σ) (o : Options σ) : Prop where
  declared : set.Declared env
  flags : set.FlagsBoolean
  statics : set.StaticsPrimitive
  types : ∀ p ∈ set.specs, p.type = inv.capability p.type.id
  symbols : ∀ p ∈ set.specs, ∀ s, p.default = .value (.symbol s) → s.description = inv.description s.id
  slurpy : ∀ c, o.slurpy = .checked c → c = inv.capability c.id

variable {env : Surroundings σ} {inv : Inventory σ}

theorem Value.eq_of_same {v w : Value} (h : v.same w = true)
    (hsymbol : ∀ s t, v = .symbol s → w = .symbol t → s.id = t.id → s = t) : v = w := by
  cases v <;> cases w <;> simp only [Value.same, Bool.false_eq_true, beq_iff_eq] at h <;>
    first
    | exact congrArg _ h
    | exact congrArg _ (hsymbol _ _ rfl rfl h)
    | rfl

namespace Validator

variable {set set' : ParameterSet σ} {o o' : Options σ}

theorem default_eq_of_same (h : Regular env inv set o) (h' : Regular env inv set' o') {p q : ParameterSpec σ}
    (hp : p ∈ set.specs) (hq : q ∈ set'.specs) (hs : p.default.Same q.default) : p.default = q.default := by
  have hsound := ParameterSet.sound_of_mem h.declared hp
  have hsound' := ParameterSet.sound_of_mem h'.declared hq
  have hsymbol := h.symbols p hp
  have hsymbol' := h'.symbols q hq
  cases hd : p.default <;> cases hd' : q.default <;> rw [hd, hd'] at hs <;> try cases hs
  · rename_i v w
    refine congrArg _ (Value.eq_of_same hs ?_)
    rintro ⟨id, description⟩ ⟨id', description'⟩ rfl rfl hid
    have hdescription := hsymbol _ hd
    have hdescription' := hsymbol' _ hd'
    simp only at hid hdescription hdescription'
    rw [hdescription, hdescription', hid]
  · rw [hsound.factory _ _ hd, hsound'.factory _ _ hd']

/-- Requests that are the same have equal sets, and options that differ in logging at most. -/
theorem eq_of_same (h : Regular env inv set o) (h' : Regular env inv set' o') (hs : Same set o set' o') :
    set = set' ∧ ({ o with debug? := none } : Options σ) = { o' with debug? := none } := by
  constructor
  · obtain ⟨specs⟩ := set
    obtain ⟨specs'⟩ := set'
    refine congrArg _ (List.ext_getElem? fun i => ?_)
    have hsize : specs.length = specs'.length := hs.size
    rcases hi : specs[i]? with _ | p <;> rcases hi' : specs'[i]? with _ | q
    · rfl
    · rw [List.getElem?_eq_none_iff] at hi
      have := (List.getElem?_eq_some_iff.mp hi').1
      omega
    · rw [List.getElem?_eq_none_iff] at hi'
      have := (List.getElem?_eq_some_iff.mp hi).1
      omega
    · have hpq := hs.specs i p q hi hi'
      have hp := List.mem_of_getElem? hi
      have hq := List.mem_of_getElem? hi'
      have hposition := ((ParameterSet.declared_sound h.declared).2 i p hi).1
      have hposition' := ((ParameterSet.declared_sound h'.declared).2 i q hi').1
      have htype : p.type = q.type := by rw [h.types p hp, hpq.type, ← h'.types q hq]
      have hdefault := default_eq_of_same h h' hp hq hpq.default
      have hname := hpq.name
      have hrequired := hpq.required
      cases p
      cases q
      simp_all
  · have hslurpy : o.slurpy = o'.slurpy := by
      have hsame := hs.slurpy
      have hc := h.slurpy
      have hc' := h'.slurpy
      cases hx : o.slurpy <;> cases hx' : o'.slurpy <;> rw [hx, hx'] at hsame <;> try cases hsame
      rename_i c d
      rw [hc c hx, hc' d hx', show c.id = d.id from hsame]
    have := hs.sourceMode
    have := hs.outputMode
    have := hs.strict
    have := hs.name
    have := hs.codegen
    cases o
    cases o'
    simp_all

/-- Whenever in the run of a process two requests were described, their canonical texts are
equal exactly if they are the same. -/
theorem canonical_eq_iff {t t' u : Identities} {d d' : Descriptor} (h : Regular env inv set o)
    (h' : Regular env inv set' o') (hd : (Descriptor.describe t set o).1 = .ok d)
    (hd' : (Descriptor.describe t' set' o').1 = .ok d') (hu : Identities.Grows (Descriptor.describe t set o).2 u)
    (hu' : Identities.Grows (Descriptor.describe t' set' o').2 u) (hsound : u.Sound) (hexact : u.next ≤ 2 ^ 53) :
    d.canonical = d'.canonical ↔ Same set o set' o' := by
  constructor
  · exact Descriptor.same_of_canonical h.statics h'.statics h.flags h'.flags hd hd' hu hu' fun _ _ hk hk' =>
      Identities.tellsApart hsound hexact hk hk'
  · intro hsame
    obtain ⟨rfl, hoptions⟩ := eq_of_same h h' hsame
    have hdescribed : Descriptor.described u.numberOf set o = Descriptor.described u.numberOf set o' := by
      show Descriptor.described u.numberOf set { o with debug? := none } = _
      rw [hoptions]
      rfl
    have htext := (Descriptor.canonical_of_describe (h.statics.covers []) hd hu).1
    rw [hdescribed, (Descriptor.canonical_of_describe (h'.statics.covers []) hd' hu').1] at htext
    exact (Except.ok.inj htext).symm

end Validator

end ArgGuard
