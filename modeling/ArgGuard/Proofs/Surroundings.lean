/-
  ArgGuard.Proofs.Surroundings — code from outside and the numbers of entities.

  Reading a request and compiling it runs code from outside. Such code may number entities
  but leaves given numbers alone (`Surroundings.Keeps`), and so does all that is made of it:
  reading definitions, writing log lines, compiling (`Advances`).
-/

import ArgGuard.Proofs.Call
import ArgGuard.Proofs.Identity
import ArgGuard.Proofs.Spec.Declared
import ArgGuard.Proofs.Spelling
import ArgGuard.Validator

namespace ArgGuard

open Call

variable {σ : Type} {env : Surroundings σ}

/-! ## Code from outside -/

namespace Surroundings

/-- Between two states of a process more entities may have been numbered. -/
def Advances (env : Surroundings σ) (s s' : σ) : Prop := Identities.Grows (env.identities s) (env.identities s')

/-- Code from outside leaves the numbers of entities alone but for numbering more. -/
structure Keeps (env : Surroundings σ) : Prop where
  stored : ∀ t s, env.identities (env.withIdentities t s) = t
  run : ∀ f vs, Moves env.Advances (env.run f vs)
  warn : ∀ line, Moves env.Advances (env.warn line)
  check : ∀ i c, env.known i = some c → ∀ v, Moves env.Advances (c.check v)
  coerce : ∀ i c, env.known i = some c → ∀ v, Moves env.Advances (c.coerced v)

theorem advances_refl (s : σ) : env.Advances s s := .refl _

theorem advances_trans (s s' s'' : σ) (h : env.Advances s s') (h' : env.Advances s' s'') : env.Advances s s'' :=
  h.trans h'

/-- A call followed by another that both leave the numbers alone. -/
theorem advances_bind {α β : Type} {c : Call σ α} {f : α → Call σ β} (hc : Moves env.Advances c)
    (hf : ∀ a, Moves env.Advances (f a)) : Moves env.Advances (c >>= f) := .bind advances_trans hc hf

theorem advances_spell (hk : env.Keeps) (v : Value) : Moves env.Advances (env.spell v) :=
  Value.asks_spell (P := fun _ c => Moves env.Advances c)
    ⟨.pure advances_refl, advances_bind, fun f => hk.run f [], .fail advances_refl _⟩ v

theorem advances_textOf (hk : env.Keeps) (v : Value) : Moves env.Advances (env.textOf v) := by
  unfold textOf
  split
  · exact .pure advances_refl _
  · exact advances_spell hk v

theorem advances_readVerdict (hk : env.Keeps) (r : Value) : Moves env.Advances (env.readVerdict r) := by
  unfold readVerdict
  split
  · exact .fail advances_refl _
  · split
    · exact .pure advances_refl _
    · exact advances_bind (advances_spell hk _) fun _ => .pure advances_refl _

theorem advances_onIdentities (hk : env.Keeps) {α : Type} {f : Identities → Except Thrown α × Identities}
    (hf : ∀ t, Identities.Grows t (f t).2) : Moves env.Advances (env.onIdentities f) := by
  intro s
  show Identities.Grows _ (env.identities (env.withIdentities (f (env.identities s)).2 s))
  rw [hk.stored]
  exact hf _

theorem advances_described (hk : env.Keeps) (v : Value) (id : Nat) (x : Value) :
    Moves env.Advances ((env.described v id).check x) ∧ Moves env.Advances ((env.described v id).coerced x) := by
  constructor
  · unfold described
    simp only
    split
    · exact advances_bind (hk.run _ _) fun r => advances_readVerdict hk r
    · exact .fail advances_refl _
  · unfold Capability.coerced described
    simp only
    split
    · rename_i f hf
      split at hf
      · cases hf
        exact hk.run _ _
      · cases hf
    · exact .pure advances_refl _

/-- A value that is a capability was made here, or is asked through its functions. -/
theorem capability?_cases {v : Value} {c : Capability σ} (h : env.capability? v = some c) :
    (∃ id, env.known id = some c) ∨ v.isCapability = true ∧ ∃ id, c = env.described v id := by
  unfold capability? at h
  split at h
  · rename_i hcapability
    split at h
    · rename_i id _ _ _ _
      cases h
      cases hid : env.known id with
      | none => exact .inr ⟨hcapability, id, rfl⟩
      | some c => exact .inl ⟨id, hid⟩
    · cases h
  · cases h

/-- Capabilities that come from outside leave the numbers alone. -/
theorem advances_capability (hk : env.Keeps) {v : Value} {c : Capability σ} (h : env.capability? v = some c) (x : Value) :
    Moves env.Advances (c.check x) ∧ Moves env.Advances (c.coerced x) := by
  rcases capability?_cases h with ⟨id, hid⟩ | ⟨_, id, rfl⟩
  · exact ⟨hk.check id c hid x, hk.coerce id c hid x⟩
  · exact advances_described hk v id x

end Surroundings

open Surroundings

/-! ## Reading and compiling -/

theorem ParameterSpec.advances_settleDefault (hk : env.Keeps) {t : Value} {type : Capability σ}
    (ht : env.capability? t = some type) (name : String) (i : Nat) (given : Value) :
    Moves env.Advances (settleDefault env name i type given) := by
  unfold settleDefault
  split
  · exact .pure advances_refl _
  refine advances_bind (advances_capability hk ht _).2 fun v => ?_
  split
  · exact .fail advances_refl _
  refine advances_bind (advances_capability hk ht _).1 fun r => ?_
  cases r
  · exact .pure advances_refl _
  · exact .fail advances_refl _

theorem ParameterSpec.advances_ofDefinition (hk : env.Keeps) (definition : Value) (i : Nat) :
    Moves env.Advances (ofDefinition env definition i) := by
  rcases ofDefinition_cases env definition i with ⟨_, h⟩ | ⟨f, h⟩ | ⟨_, _, htype, _, _, _, ⟨_, h⟩ | ⟨_, h⟩⟩ <;> rw [h]
  · exact .fail advances_refl _
  · exact .fail advances_refl _
  · exact .pure advances_refl _
  · exact advances_bind (advances_settleDefault hk htype _ _ _) fun _ => .pure advances_refl _

namespace ParameterSet

theorem advances_readList (hk : env.Keeps) (i : Nat) (items : List (Option Value)) :
    Moves env.Advances (readList env i items) := by
  induction items generalizing i with
  | nil => exact .pure advances_refl _
  | cons o items ih =>
    cases o with
    | none => exact advances_bind (ih _) fun _ => .pure advances_refl _
    | some d =>
      exact advances_bind (ParameterSpec.advances_ofDefinition hk d i) fun _ =>
        advances_bind (ih _) fun _ => .pure advances_refl _

theorem advances_read (hk : env.Keeps) (params : Parameters σ) : Moves env.Advances (read env params) := by
  have hcollect : ∀ slots : List (Option (ParameterSpec σ)), Moves env.Advances (collect slots) := by
    intro slots
    unfold collect
    simp only
    split
    · exact .fail advances_refl _
    · split
      · exact .pure advances_refl _
      · exact .fail advances_refl _
  cases params with
  | set s => exact .pure advances_refl _
  | value v =>
    rcases read_cases env v with ⟨f, hf⟩ | hread
    · rw [hf]
      exact .fail advances_refl _
    · rw [hread]
      exact advances_bind (advances_readList hk _ _) hcollect

end ParameterSet

namespace Options

/-- A refusal stops whatever it is raised in. -/
theorem not_returns_raise {α : Type} {r : Refusal} {a : α} : ¬ Returns (r.raise env) a := by
  intro h
  cases r with
  | absent => exact not_returns_fail h
  | option f => exact not_returns_fail h
  | mode fault got =>
    obtain ⟨_, _, h⟩ := returns_bind h
    exact not_returns_fail h

theorem read_of_resolve {given : Value} {o : Options σ} (h : resolve env given = .ok o) : read env given = pure o := by
  rw [read, h]

/-- Options that are read leave the state alone. -/
theorem start_read_eq_ok {given : Value} {o : Options σ} {s s' : σ} (h : start (read env given) s = (.ok o, s')) :
    resolve env given = .ok o ∧ s = s' := by
  unfold read at h
  split at h
  · rename_i o' hresolve
    cases h
    exact ⟨hresolve, rfl⟩
  · exact absurd (returns_of_start h) not_returns_raise

end Options

theorem Options.debug_of_resolve {given : Value} {o : Options σ} (h : resolve env given = .ok o) :
    o.debug? = sink? env (given.get "debug") := by
  have hget : (if given.isUndefined then Value.record [] else given).get "debug" = given.get "debug" := by
    cases given <;> rfl
  unfold resolve at h
  simp only [bind, Except.bind] at h
  split at h
  · cases h
  · cases h
    exact congrArg (sink? env) hget

/-- The sink that options select writes from outside. -/
theorem Options.advances_log (hk : env.Keeps) {given : Value} {o : Options σ} (h : resolve env given = .ok o)
    (line : String) : Moves env.Advances (log o.debug? line) := by
  have hwarn : Moves env.Advances (warnSink env line) := hk.warn _
  rw [debug_of_resolve h]
  unfold ArgGuard.log sink?
  split
  · rename_i sink hs
    split at hs
    · cases hs
      exact advances_bind (hk.run _ _) fun _ => .pure advances_refl _
    · cases hs
      exact hwarn
    · cases hs
    · split at hs
      · cases hs
        exact hwarn
      · cases hs
  · exact .pure advances_refl _

theorem Plan.advances_build {p : Plan σ} {refusal? : Option String} {sink? : Option (Sink σ)}
    (h : ∀ line, Moves env.Advances (log sink? line)) : Moves env.Advances (p.build refusal? sink?) := by
  unfold build
  split
  · exact advances_bind (h _) fun _ => .pure advances_refl _
  · split
    · exact .fail advances_refl _
    · split
      · exact advances_bind (h _) fun _ => .pure advances_refl _
      · split
        · exact advances_bind (h _) fun _ => .pure advances_refl _
        · exact .fail advances_refl _

theorem Validator.advances_compile {set : ParameterSet σ} {o : Options σ} {descriptor : String}
    (h : ∀ line, Moves env.Advances (log o.debug? line)) : Moves env.Advances (compile env set o descriptor) :=
  advances_bind (h _) fun _ => advances_bind (Plan.advances_build h) fun _ => .pure advances_refl _

/-! ## Surroundings that only give numbers -/

namespace Surroundings

/-- A process whose state is the table of numbers and that knows one type. -/
def numbering : Surroundings Identities where
  run _ _ := Call.fail .misuse
  known
    | 1 => some (Capability.Scalar.nonEmptyStr.capability 1)
    | _ => none
  warn _ := pure ()
  debugByDefault := false
  refusal? := none
  identities t := t
  withIdentities t _ := t

theorem keeps_numbering : numbering.Keeps where
  stored _ _ := rfl
  run _ _ := .fail advances_refl _
  warn _ := .pure advances_refl _
  check i c h v := by
    unfold numbering at h
    simp only at h
    split at h
    · cases h
      exact .pure advances_refl _
    · cases h
  coerce i c h v := by
    unfold numbering at h
    simp only at h
    split at h
    · cases h
      exact .pure advances_refl _
    · cases h

end Surroundings

end ArgGuard
