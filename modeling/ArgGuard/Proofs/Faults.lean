/-
  ArgGuard.Proofs.Faults — what stops the making of a validator.

  Reading definitions and options, describing the request and compiling each test what they
  are given and stop with a fault of the definition or of an option. Some errors that are not
  this library's get past the tests (`ParameterSpec.Escapes`, `Options.Escapes`): null in a
  list of definitions is one (`null_definition_escapes`). No other error stops the making of
  a validator (`Validator.stops_with_fault`).

  Code from outside has a case for each place where it runs: a type's coercion and check, a
  debug sink, and the functions by which a value tells its text. Where such code comes to a
  value that is of no use, no verdict or one whose reason has no text, the error is not its
  own (`Surroundings.stops_spell`). The inline form of a type from outside is taken as it is
  and is not run here.
-/

import ArgGuard.Proofs.Descriptor
import Mathlib.Data.List.TakeWhile

namespace ArgGuard

open Call

variable {σ : Type} {env : Surroundings σ}

/-- Faults of definitions and of options. -/
def Thrown.IsFault (t : Thrown) : Prop := ∃ f, t.failure? = some f ∧ (f.cls = .definition ∨ f.cls = .config)

theorem Thrown.isFault_definition (f : DefinitionFault) : (Thrown.definition f).IsFault := ⟨f.failure, rfl, .inl rfl⟩

theorem Thrown.isFault_option (f : OptionFault) : (Thrown.option f).IsFault := ⟨f.failure, rfl, .inr rfl⟩

/-- A test that refuses with a fault stops with that one. -/
theorem Thrown.isFault_of_stops {α : Type} {f : DefinitionFault} {t : Thrown}
    (h : Stops (Call.fail (.definition f) : Call σ α) t) : t.IsFault := by
  rw [eq_of_stops_fail h]
  exact isFault_definition f

/-- The type of a definition makes a value of the default. -/
structure ParameterSpec.Coerces (env : Surroundings σ) (d : Value) (c : Capability σ) (v : Value) : Prop where
  type : env.capability? (d.get "type") = some c
  coerced : Returns (c.coerced (d.get "default")) v

/-- Errors that are no faults and get past the tests of a definition, or of a hole in place
of one. -/
inductive ParameterSpec.Escapes (env : Surroundings σ) : Option Value → Thrown → Prop where
  | hole : Escapes env none .misuse
  | absent {d : Value} (h : d.isAbsent = true) : Escapes env (some d) .misuse
  /-- The type's coercion of the default stops itself. -/
  | coercion {d : Value} {c : Capability σ} {t : Thrown} (hc : env.capability? (d.get "type") = some c)
      (h : Stops (c.coerced (d.get "default")) t) : Escapes env (some d) t
  /-- The check of a type made here stops itself. -/
  | known {d v : Value} {c : Capability σ} {id : Nat} {t : Thrown} (hd : Coerces env d c v) (hc : env.known id = some c)
      (h : Stops (c.check v) t) : Escapes env (some d) t
  /-- The check function of a type from outside stops itself. -/
  | check {d v : Value} {c : Capability σ} {f : Nat} {own : List (String × Value)} {t : Thrown} (hd : Coerces env d c v)
      (hf : (d.get "type").get "check" = .function f own) (h : Stops (env.run f [v]) t) : Escapes env (some d) t
  /-- The check function comes to no verdict. -/
  | verdict {d v r : Value} {c : Capability σ} {f : Nat} {own : List (String × Value)} (hd : Coerces env d c v)
      (hf : (d.get "type").get "check" = .function f own) (hr : Returns (env.run f [v]) r) (h : r.isAbsent = true) :
      Escapes env (some d) .misuse
  /-- The default is rejected for a reason that no message can take in. -/
  | reason {d v r : Value} {c : Capability σ} {f : Nat} {own : List (String × Value)} {t : Thrown}
      (hd : Coerces env d c v) (hf : (d.get "type").get "check" = .function f own) (hr : Returns (env.run f [v]) r)
      (hok : (r.get "ok").truthy = false) (h : Stops (env.spell (r.get "reason")) t) : Escapes env (some d) t
  /-- The coercion made a function of the default, and it does not tell its text. -/
  | spelling {d : Value} {c : Capability σ} {f : Nat} {own : List (String × Value)} {t : Thrown}
      (hd : Coerces env d c (.function f own)) (h : Stops (env.textOf (.function f own)) t) : Escapes env (some d) t
  /-- The flag is given and has no canonical text, as NaN and the infinities have none. -/
  | flag {d : Value} {t : Thrown} (hd : (d.get "required").isAbsent = false)
      (h : Canonical.text (d.get "required") = .error t) : Escapes env (some d) t

/-- Errors that are no faults and get past the tests of options. -/
inductive Options.Escapes (env : Surroundings σ) : Value → Thrown → Prop where
  | null : Escapes env .null .misuse
  /-- A mode is none of the known ones, and has no text that the fault could name it by. -/
  | mode {given : Value} {k : String} {t : Thrown} (hk : k = "sourceMode" ∨ k = "outputMode")
      (h : Stops (env.textOf (given.get k)) t) : Escapes env given t
  /-- The sink fails itself. -/
  | sink {given : Value} {sink : Sink σ} {line : String} {t : Thrown} (hs : sink? env (given.get "debug") = some sink)
      (h : Stops (sink line) t) : Escapes env given t

/-! ## Texts and verdicts -/

namespace Surroundings

/-- A value that is asked for its text stops with an error of one of its functions, or has no
text. -/
theorem stops_spell {v : Value} {t : Thrown} (h : Stops (env.spell v) t) :
    t = .misuse ∨ ∃ f, Stops (env.run f []) t := by
  refine Value.asks_spell (P := fun _ c => ∀ t, Stops c t → t = .misuse ∨ ∃ f, Stops (env.run f []) t) ?_ v t h
  constructor
  case pure => exact fun a t h => absurd h not_stops_pure
  case bind =>
    intro α β c f hc hf t h
    rcases stops_bind h with h | ⟨a, _, h⟩
    · exact hc t h
    · exact hf a t h
  case run => exact fun f t h => .inr ⟨f, h⟩
  case mute => exact fun t h => .inl (eq_of_stops_fail h)

theorem stops_readVerdict {r : Value} {t : Thrown} (h : Stops (env.readVerdict r) t) :
    r.isAbsent = true ∧ t = .misuse ∨ (r.get "ok").truthy = false ∧ Stops (env.spell (r.get "reason")) t := by
  unfold readVerdict at h
  split at h
  · rename_i habsent
    exact .inl ⟨habsent, eq_of_stops_fail h⟩
  · split at h
    · exact absurd h not_stops_pure
    · rename_i hok
      rcases stops_bind h with h | ⟨_, _, h⟩
      · exact .inr ⟨by simpa using hok, h⟩
      · exact absurd h not_stops_pure

end Surroundings

theorem Value.get_check_of_isCapability {v : Value} (h : v.isCapability = true) :
    ∃ f own, v.get "check" = .function f own := by
  simp only [isCapability, Bool.and_eq_true] at h
  have hcheck := h.1.1.2
  rw [get]
  rcases hm : v.member? "check" with _ | w <;> rw [hm] at hcheck
  · cases hcheck
  · cases w with
    | function f own => exact ⟨f, own, rfl⟩
    | _ => cases hcheck

/-! ## Definitions -/

namespace ParameterSpec

/-- A check stops in code from outside, or because that comes to no verdict or to one whose
reason has no text. -/
theorem stops_check {d v : Value} {c : Capability σ} {t : Thrown} (hd : Coerces env d c v) (h : Stops (c.check v) t) :
    Escapes env (some d) t := by
  rcases Surroundings.capability?_cases hd.type with ⟨id, hid⟩ | ⟨hcapability, id, rfl⟩
  · exact .known hd hid h
  obtain ⟨f, own, hf⟩ := Value.get_check_of_isCapability hcapability
  simp only [Surroundings.described, hf] at h
  rcases stops_bind h with h | ⟨r, hr, h⟩
  · exact .check hd hf h
  rcases Surroundings.stops_readVerdict h with ⟨habsent, rfl⟩ | ⟨hok, h⟩
  · exact .verdict hd hf hr habsent
  · exact .reason hd hf hr hok h

theorem stops_settleDefault {d : Value} {name : String} {i : Nat} {type : Capability σ} {t : Thrown}
    (htype : env.capability? (d.get "type") = some type) (h : Stops (settleDefault env name i type (d.get "default")) t) :
    t.IsFault ∨ Escapes env (some d) t := by
  unfold settleDefault at h
  split at h
  · exact absurd h not_stops_pure
  rcases stops_bind h with hcoerced | ⟨v, hv, h⟩
  · exact .inr (.coercion htype hcoerced)
  split at h
  · exact .inl (Thrown.isFault_of_stops h)
  rcases stops_bind h with hcheck | ⟨verdict, _, h⟩
  · exact .inr (stops_check ⟨htype, hv⟩ hcheck)
  cases verdict with
  | passed => exact absurd h not_stops_pure
  | rejected reason => exact .inl (Thrown.isFault_of_stops h)

theorem stops_ofDefinition {d : Value} {i : Nat} {t : Thrown} (h : Stops (ofDefinition env d i) t) :
    t.IsFault ∨ Escapes env (some d) t := by
  rcases ofDefinition_cases env d i with ⟨habsent, hread⟩ | ⟨f, hread⟩ |
    ⟨name, type, htype, _, _, _, ⟨_, hread⟩ | ⟨_, hread⟩⟩ <;> rw [hread] at h
  · rw [eq_of_stops_fail h]
    exact .inr (.absent habsent)
  · exact .inl (Thrown.isFault_of_stops h)
  · exact absurd h not_stops_pure
  · rcases stops_bind h with hdefault | ⟨_, _, h⟩
    · exact stops_settleDefault htype hdefault
    · exact absurd h not_stops_pure

end ParameterSpec

namespace ParameterSet

theorem stops_readList {i : Nat} {items : List (Option Value)} {t : Thrown} (h : Stops (readList env i items) t) :
    t.IsFault ∨ ∃ d? ∈ items, ParameterSpec.Escapes env d? t := by
  induction items generalizing i with
  | nil => exact absurd h not_stops_pure
  | cons o items ih =>
    have hrest : ∀ {j : Nat}, Stops (readList env j items) t →
        t.IsFault ∨ ∃ d? ∈ o :: items, ParameterSpec.Escapes env d? t := by
      intro j hj
      rcases ih hj with hf | ⟨d?, hd, he⟩
      · exact .inl hf
      · exact .inr ⟨d?, List.mem_cons_of_mem _ hd, he⟩
    cases o with
    | none =>
      rcases stops_bind h with h | ⟨_, _, h⟩
      · exact hrest h
      · exact absurd h not_stops_pure
    | some d =>
      rcases stops_bind h with hd | ⟨_, _, h⟩
      · rcases ParameterSpec.stops_ofDefinition hd with hf | he
        · exact .inl hf
        · exact .inr ⟨some d, List.mem_cons_self, he⟩
      rcases stops_bind h with h | ⟨_, _, h⟩
      · exact hrest h
      · exact absurd h not_stops_pure

/-- A slot is left empty only by a hole. -/
theorem hole_of_readList {i : Nat} {items : List (Option Value)} {slots : List (Option (ParameterSpec σ))}
    (h : Returns (readList env i items) slots) (hs : none ∈ slots) : none ∈ items := by
  induction items generalizing i slots with
  | nil =>
    rw [returns_pure h] at hs
    cases hs
  | cons o items ih =>
    cases o with
    | none => exact List.mem_cons_self
    | some d =>
      obtain ⟨p, _, h⟩ := returns_bind h
      obtain ⟨rest, hrest, h⟩ := returns_bind h
      rw [returns_pure h] at hs
      rcases List.mem_cons.mp hs with hs | hs
      · cases hs
      · exact List.mem_cons_of_mem _ (ih hrest hs)

theorem stops_collect {slots : List (Option (ParameterSpec σ))} {t : Thrown} (h : Stops (collect slots) t) :
    t.IsFault ∨ t = .misuse ∧ none ∈ slots := by
  unfold collect at h
  simp only at h
  split at h
  · exact .inl (Thrown.isFault_of_stops h)
  split at h
  · exact absurd h not_stops_pure
  rename_i hlength
  refine .inr ⟨eq_of_stops_fail h, Classical.byContradiction fun hnone => hlength ?_⟩
  have hfilled : ∀ o ∈ slots, o.isSome = true := fun o ho => Option.isSome_iff_ne_none.mpr fun hn => hnone (hn ▸ ho)
  rw [List.takeWhile_eq_self_iff.mpr hfilled, List.length_filterMap_eq_countP, List.countP_eq_length]
  exact hfilled

theorem stops_read {params : Value} {t : Thrown} (h : Stops (read env (.value params)) t) :
    t.IsFault ∨ ∃ d? ∈ definitions params, ParameterSpec.Escapes env d? t := by
  rcases read_cases env params with ⟨f, hf⟩ | hread
  · rw [hf] at h
    exact .inl (Thrown.isFault_of_stops h)
  rw [hread] at h
  rcases stops_bind h with h | ⟨slots, hslots, h⟩
  · exact stops_readList h
  rcases stops_collect h with hf | ⟨rfl, hnone⟩
  · exact .inl hf
  · exact .inr ⟨none, hole_of_readList hslots hnone, .hole⟩

end ParameterSet

/-! ## Options -/

namespace Options

theorem checkMode_error {m : Type} {ofText? : String → Option m} {fault : String → OptionFault} {v : Value} {r : Refusal}
    (h : checkMode ofText? fault v = .error r) : r = .mode fault v := by
  unfold checkMode at h
  split at h
  · cases h
  · cases h
    rfl

theorem require_error {ok : Bool} {fault : OptionFault} {r : Refusal} (h : require ok fault = .error r) :
    r = .option fault := by
  unfold require at h
  split at h
  · cases h
  · cases h
    rfl

/-- Why options are refused: they have no members, an option is at fault, or a mode is. -/
theorem validate_error {v : Value} {r : Refusal} (h : validate v = .error r) :
    v.isAbsent = true ∧ r = .absent ∨ (∃ f, r = .option f) ∨
      ∃ k fault, (k = "sourceMode" ∨ k = "outputMode") ∧ r = .mode fault (v.get k) := by
  unfold validate at h
  split at h
  · rename_i habsent
    cases h
    exact .inl ⟨habsent, rfl⟩
  simp only at h
  rcases except_bind_error h with h | ⟨_, _, h⟩
  · exact .inr (.inr ⟨_, _, .inl rfl, checkMode_error h⟩)
  rcases except_bind_error h with h | ⟨_, _, h⟩
  · exact .inr (.inr ⟨_, _, .inr rfl, checkMode_error h⟩)
  -- the tests that are left refuse with a fault each
  rcases except_bind_error h with h | ⟨_, _, h⟩
  · exact .inr (.inl ⟨_, require_error h⟩)
  rcases except_bind_error h with h | ⟨_, _, h⟩
  · exact .inr (.inl ⟨_, require_error h⟩)
  rcases except_bind_error h with h | ⟨_, _, h⟩
  · exact .inr (.inl ⟨_, require_error h⟩)
  rcases except_bind_error h with h | ⟨_, _, h⟩
  · exact .inr (.inl ⟨_, require_error h⟩)
  rcases except_bind_error h with h | ⟨_, _, h⟩
  · exact .inr (.inl ⟨_, require_error h⟩)
  · exact .inr (.inl ⟨_, require_error h⟩)

theorem stops_read {given : Value} {t : Thrown} (h : Stops (read env given) t) : t.IsFault ∨ Escapes env given t := by
  unfold read at h
  split at h
  · exact absurd h not_stops_pure
  rename_i r hresolve
  unfold resolve at hresolve
  simp only at hresolve
  rcases except_bind_error hresolve with hvalidate | ⟨_, _, hmerge⟩
  · rcases validate_error hvalidate with ⟨habsent, rfl⟩ | ⟨f, rfl⟩ | ⟨k, fault, hk, rfl⟩
    · cases given with
      | null =>
        rw [eq_of_stops_fail h]
        exact .inr .null
      | _ => cases habsent
    · rw [eq_of_stops_fail h]
      exact .inl (Thrown.isFault_option f)
    · rcases stops_bind h with htext | ⟨_, _, h⟩
      · refine .inr (.mode hk ?_)
        cases given <;> exact htext
      · rw [eq_of_stops_fail h]
        exact .inl (Thrown.isFault_option _)
  · cases hmerge

end Options

/-! ## Compiling -/

theorem stops_log {sink? : Option (Sink σ)} {line : String} {t : Thrown} (h : Stops (log sink? line) t) :
    ∃ sink, sink? = some sink ∧ Stops (sink line) t := by
  cases sink? with
  | none => exact absurd h not_stops_pure
  | some sink => exact ⟨sink, rfl, h⟩

theorem Plan.stops_build {p : Plan σ} {refusal? : Option String} {sink? : Option (Sink σ)} {t : Thrown}
    (h : Stops (p.build refusal? sink?) t) : t.IsFault ∨ ∃ line, Stops (log sink? line) t := by
  have hlogged : ∀ {line : String} {b : Built σ}, Stops (do log sink? line; return b) t →
      ∃ line, Stops (log sink? line) t := by
    intro line b hb
    rcases stops_bind hb with hlog | ⟨_, _, hb⟩
    · exact ⟨line, hlog⟩
    · exact absurd hb not_stops_pure
  unfold build at h
  split at h
  · exact .inr (hlogged h)
  split at h
  · exact .inl (Thrown.isFault_of_stops h)
  split at h
  · exact .inr (hlogged h)
  split at h
  · exact .inr (hlogged h)
  · exact .inl (Thrown.isFault_of_stops h)

namespace Validator

theorem stops_compile {set : ParameterSet σ} {given : Value} {o : Options σ} (ho : Options.resolve env given = .ok o)
    {descriptor : String} {t : Thrown} (h : Stops (compile env set o descriptor) t) :
    t.IsFault ∨ Options.Escapes env given t := by
  have hlog : ∀ line, Stops (log o.debug? line) t → Options.Escapes env given t := by
    intro line hl
    obtain ⟨sink, hsink, hstops⟩ := stops_log hl
    exact .sink (Options.debug_of_resolve ho ▸ hsink) hstops
  rcases stops_bind h with h | ⟨_, _, h⟩
  · exact .inr (hlog _ h)
  rcases stops_bind h with h | ⟨_, _, h⟩
  · rcases Plan.stops_build h with hf | ⟨line, hl⟩
    · exact .inl hf
    · exact .inr (hlog line hl)
  · exact absurd h not_stops_pure

/-! ## Making a validator -/

/-- A set that was read has a descriptor unless a default that is a function does not tell its text
or a flag that was given has none. -/
theorem stops_describing (hk : env.Keeps) {params : Value} {set : ParameterSet σ} {o : Options σ}
    {s s₁ s' : σ} {t : Thrown} (hread : start (ParameterSet.read env (.value params)) s = (.ok set, s₁))
    (hcount : (ParameterSet.definitions params).length ≤ 2 ^ 53) (hs : (env.identities s₁).Sound)
    (hexact : (env.identities s').next ≤ 2 ^ 53) (h : start (Descriptor.ofRequest env set o) s₁ = (.error t, s')) :
    ∃ d? ∈ ParameterSet.definitions params, ParameterSpec.Escapes env d? t := by
  have hdeclared : set.Declared env := ⟨params, s, s₁, hread⟩
  obtain ⟨_, hlength, heach⟩ := ParameterSet.read_eq_ok hread
  -- each parameter was read from a definition of its own
  have hdefinition : ∀ p ∈ set.specs, ∃ d, some d ∈ ParameterSet.definitions params ∧
      ∃ i s₁ s₂, start (ParameterSpec.ofDefinition env d i) s₁ = (.ok p, s₂) := by
    intro p hp
    obtain ⟨i, hi⟩ := List.mem_iff_getElem?.mp hp
    obtain ⟨d, _, _, hd, hofDefinition⟩ := heach i p hi
    exact ⟨d, List.mem_of_getElem? hd, i, _, _, hofDefinition⟩
  rcases start_bind_eq_error h with hasked | ⟨told, s₂, hasked, h⟩
  · obtain ⟨p, hp, f, own, hd, hstops⟩ := Descriptor.stops_askDefaults (stops_of_start hasked)
    obtain ⟨d, hmem, _, _, _, hofDefinition⟩ := hdefinition p hp
    exact ⟨some d, hmem, .spelling ⟨ofDefinition_type hofDefinition, (ofDefinition_static hofDefinition hd).1⟩ hstops⟩
  have hposition : ∀ p ∈ set.specs, p.position < 2 ^ 53 := by
    intro p hp
    obtain ⟨i, hi⟩ := List.mem_iff_getElem?.mp hp
    have hlt := (List.getElem?_eq_some_iff.mp hi).1
    rw [((ParameterSet.declared_sound hdeclared).2 i p hi).1]
    omega
  have hasks : env.Advances s₁ s₂ := by
    have := Descriptor.advances_askDefaults hk set.specs s₁
    rwa [hasked] at this
  have hresult : (Descriptor.describe (env.identities s₂) set o told).1 = .error t := congrArg Prod.fst h
  have hstored : (Descriptor.describe (env.identities s₂) set o told).2 = env.identities s' := by
    rw [← hk.stored (Descriptor.describe (env.identities s₂) set o told).2 s₂]
    exact congrArg env.identities (congrArg Prod.snd h)
  obtain ⟨p, hp, hflag⟩ := Descriptor.describe_error
    (Descriptor.covers_of_askDefaults hdeclared (returns_of_start hasked))
    hposition (Identities.sound_grows hasks hs) (hstored ▸ hexact) hresult
  obtain ⟨d, hmem, _, _, _, hofDefinition⟩ := hdefinition p hp
  obtain ⟨name, type, default, rfl, _⟩ := ofDefinition_eq_ok hofDefinition
  refine ⟨some d, hmem, ?_⟩
  simp only [requiredFlag] at hflag
  split at hflag
  · cases hflag
  · rename_i hgiven
    exact .flag (by simpa using hgiven) hflag

/-- The making of a validator stops with a fault, or with an error that gets past the tests of a
definition or of the options. -/
theorem stops_with_fault (hk : env.Keeps) {params options : Value} {s s' : σ} {t : Thrown} (hs : (env.identities s).Sound)
    (hcount : (ParameterSet.definitions params).length ≤ 2 ^ 53) (hexact : (env.identities s').next ≤ 2 ^ 53)
    (h : start (ofParameters env (.value params) options) s = (.error t, s')) :
    t.IsFault ∨ (∃ d? ∈ ParameterSet.definitions params, ParameterSpec.Escapes env d? t) ∨
      Options.Escapes env options t := by
  rcases start_bind_eq_error h with hprepare | ⟨r, s₁, hprepare, hcompile⟩
  · rcases start_bind_eq_error hprepare with hread | ⟨set, s₁, hread, h⟩
    · exact (ParameterSet.stops_read (stops_of_start hread)).imp_right .inl
    rcases start_bind_eq_error h with hresolve | ⟨o, s₂, hresolve, h⟩
    · exact (Options.stops_read (stops_of_start hresolve)).imp_right .inr
    obtain ⟨_, rfl⟩ := Options.start_read_eq_ok hresolve
    have hgrown : env.Advances s s₁ := by
      have := ParameterSet.advances_read hk (.value params) s
      rwa [hread] at this
    rcases start_bind_eq_error h with hdescribe | ⟨d, s₃, _, h⟩
    · exact .inr (.inl (stops_describing hk hread hcount (Identities.sound_grows hgrown hs) hexact hdescribe))
    · cases h
  · obtain ⟨_, _, _, h⟩ := start_bind_eq_ok hprepare
    obtain ⟨o, _, hresolve, h⟩ := start_bind_eq_ok h
    obtain ⟨_, _, _, h⟩ := start_bind_eq_ok h
    cases h
    exact (stops_compile (Options.start_read_eq_ok hresolve).1 (stops_of_start hcompile)).imp_right .inr

theorem stops_with_fault_unnamed : ∃ t s',
    start (ofParameters .numbering (.value (.ofItems [.record []])) .undefined) .initial = (.error t, s') ∧
    Surroundings.numbering.Keeps ∧ s'.next ≤ 2 ^ 53 ∧
    (t.IsFault ∨ (∃ d? ∈ [some (.record [])], ParameterSpec.Escapes .numbering d? t) ∨
      Options.Escapes .numbering .undefined t) := by
  have h : start (ofParameters .numbering (.value (.ofItems [.record []])) .undefined) .initial =
      (.error (.definition (.unnamed 0)), .initial) := rfl
  exact ⟨_, _, h, Surroundings.keeps_numbering, by decide,
    stops_with_fault Surroundings.keeps_numbering Identities.sound_initial (by decide) (by decide) h⟩

/-- Null in place of a definition stops with an error that is no fault, though no code from
outside ran. -/
theorem null_definition_escapes :
    start (ofParameters .numbering (.value (.ofItems [.null])) .undefined) .initial = (.error .misuse, .initial) ∧
      ¬ Thrown.misuse.IsFault := by
  refine ⟨rfl, ?_⟩
  rintro ⟨f, hf, _⟩
  cases hf

end Validator

end ArgGuard
