/-
  ArgGuard.Proofs.Call — two calls side by side.

  Two calls agree when, started from related states, they come to the same value or to
  errors that may stand for each other, and leave related states behind (`Agree`). What a
  call may return at all is `Returns`; what follows a call only has to agree on those
  values (`Agree.follow`). What it may stop with is `Stops`, and what it makes of the state,
  whatever it comes to, is `Moves`. A call that gives the same result for the same call is
  `Repeatable`; the outcome that it then has from every state is what it `Always` comes to.
-/

import ArgGuard.Call

namespace ArgGuard.Call

variable {σ τ α β : Type} {R : σ → τ → Prop} {E : Thrown → Thrown → Prop}

/-- The same value, or errors that `E` relates. -/
def Matches (E : Thrown → Thrown → Prop) : Except Thrown α → Except Thrown α → Prop
  | .ok a, .ok b => a = b
  | .error t, .error u => E t u
  | _, _ => False

def Agree (R : σ → τ → Prop) (E : Thrown → Thrown → Prop) (c : Call σ α) (d : Call τ α) : Prop :=
  ∀ s t, R s t → Matches E (start c s).1 (start d t).1 ∧ R (start c s).2 (start d t).2

/-- A value that a call comes to from some state. -/
def Returns (c : Call σ α) (a : α) : Prop := ∃ s, (start c s).1 = .ok a

/-! ## Running -/

@[simp] theorem start_ofExcept (r : Except Thrown α) (s : σ) : start (ofExcept r : Call σ α) s = (r, s) := rfl

theorem ofExcept_bind (r : Except Thrown α) (f : α → Except Thrown β) :
    (ofExcept (r >>= f) : Call σ β) = (ofExcept r >>= fun a => ofExcept (f a)) := by cases r <;> rfl

theorem ofExcept_ok (a : α) : (ofExcept (.ok a) : Call σ α) = pure a := rfl

/-- A known result that is good went through a good one. -/
theorem except_bind_ok {ε : Type} {x : Except ε α} {f : α → Except ε β} {b : β} (h : x >>= f = .ok b) :
    ∃ a, x = .ok a ∧ f a = .ok b := by
  cases x with
  | error t => cases h
  | ok a => exact ⟨a, rfl, h⟩

/-- One that is an error was one at once, or went through a good one. -/
theorem except_bind_error {ε : Type} {x : Except ε α} {f : α → Except ε β} {t : ε} (h : x >>= f = .error t) :
    x = .error t ∨ ∃ a, x = .ok a ∧ f a = .error t := by
  cases x with
  | error u =>
    cases h
    exact .inl rfl
  | ok a => exact .inr ⟨a, rfl, h⟩

theorem start_bind_ok {c : Call σ α} {f : α → Call σ β} {s s' : σ} {a : α} (h : start c s = (.ok a, s')) :
    start (c >>= f) s = start (f a) s' := by rw [start_bind, h]

theorem start_bind_error {c : Call σ α} {f : α → Call σ β} {s s' : σ} {t : Thrown}
    (h : start c s = (.error t, s')) : start (c >>= f) s = (.error t, s') := by rw [start_bind, h]

/-- A bind that succeeds went through a value of its first call. -/
theorem start_bind_eq_ok {c : Call σ α} {f : α → Call σ β} {s s' : σ} {b : β}
    (h : start (c >>= f) s = (.ok b, s')) :
    ∃ a s₁, start c s = (.ok a, s₁) ∧ start (f a) s₁ = (.ok b, s') := by
  rcases hc : start c s with ⟨_ | a, s₁⟩
  · rw [start_bind_error hc] at h
    cases h
  · rw [start_bind_ok hc] at h
    exact ⟨a, s₁, rfl, h⟩

/-- A bind that fails does so in its first call, or after it. -/
theorem start_bind_eq_error {c : Call σ α} {f : α → Call σ β} {s s' : σ} {t : Thrown}
    (h : start (c >>= f) s = (.error t, s')) :
    start c s = (.error t, s') ∨ ∃ a s₁, start c s = (.ok a, s₁) ∧ start (f a) s₁ = (.error t, s') := by
  rcases hc : start c s with ⟨u | a, s₁⟩
  · rw [start_bind_error hc] at h
    cases h
    exact .inl rfl
  · rw [start_bind_ok hc] at h
    exact .inr ⟨a, s₁, rfl, h⟩

theorem start_ofExcept_eq_ok {r : Except Thrown α} {s s' : σ} {a : α}
    (h : start (ofExcept r : Call σ α) s = (.ok a, s')) : r = .ok a ∧ s = s' := by
  rw [start_ofExcept] at h
  exact ⟨congrArg Prod.fst h, congrArg Prod.snd h⟩

/-! ## Values that a call may return -/

theorem returns_of_start {c : Call σ α} {s s' : σ} {a : α} (h : start c s = (.ok a, s')) : Returns c a :=
  ⟨s, congrArg Prod.fst h⟩

theorem returns_pure {a b : α} (h : Returns (pure a : Call σ α) b) : b = a := by
  obtain ⟨s, h⟩ := h
  cases h
  rfl

theorem not_returns_fail {t : Thrown} {a : α} : ¬ Returns (fail t : Call σ α) a := by
  rintro ⟨s, h⟩
  cases h

theorem returns_bind {c : Call σ α} {f : α → Call σ β} {b : β} (h : Returns (c >>= f) b) :
    ∃ a, Returns c a ∧ Returns (f a) b := by
  obtain ⟨s, h⟩ := h
  obtain ⟨a, s₁, hc, hf⟩ := start_bind_eq_ok (show start (c >>= f) s = (.ok b, (start (c >>= f) s).2) from Prod.ext h rfl)
  exact ⟨a, returns_of_start hc, returns_of_start hf⟩

/-- A known result that may be returned is the value. -/
theorem eq_pure_of_returns {c : Call σ α} {r : Except Thrown α} {a : α} (hc : c = ofExcept r) (ha : Returns c a) :
    c = pure a := by
  subst hc
  obtain ⟨s, rfl⟩ := ha
  rfl

/-- What follows a call matters only for the values that the call may return. -/
theorem bind_congr_of_returns {c : Call σ α} {f g : α → Call σ β} (h : ∀ a, Returns c a → f a = g a) :
    (c >>= f) = (c >>= g) := by
  funext s
  show start (c >>= f) s = start (c >>= g) s
  rcases hc : start c s with ⟨t | a, s'⟩
  · rw [start_bind_error hc, start_bind_error hc]
  · rw [start_bind_ok hc, start_bind_ok hc, h a (returns_of_start hc)]

/-- What follows a call may look at it through a part only. -/
theorem bind_shown {γ : Type} {c : Call σ α} {ψ : α → β} {d : Call σ β} (h : (do let a ← c; pure (ψ a)) = d)
    (k : β → Call σ γ) : (c >>= fun a => k (ψ a)) = d >>= k := by
  rw [← h, bind_assoc]
  simp only [pure_bind]

/-! ## Errors that a call may stop with -/

/-- An error that a call stops with from some state. -/
def Stops (c : Call σ α) (t : Thrown) : Prop := ∃ s, (start c s).1 = .error t

theorem stops_of_start {c : Call σ α} {s s' : σ} {t : Thrown} (h : start c s = (.error t, s')) : Stops c t :=
  ⟨s, congrArg Prod.fst h⟩

theorem not_stops_pure {a : α} {t : Thrown} : ¬ Stops (pure a : Call σ α) t := by
  rintro ⟨s, h⟩
  cases h

theorem eq_of_stops_fail {t u : Thrown} (h : Stops (fail t : Call σ α) u) : u = t := by
  obtain ⟨s, h⟩ := h
  cases h
  rfl

theorem stops_bind {c : Call σ α} {f : α → Call σ β} {t : Thrown} (h : Stops (c >>= f) t) :
    Stops c t ∨ ∃ a, Returns c a ∧ Stops (f a) t := by
  obtain ⟨s, h⟩ := h
  rcases start_bind_eq_error (show start (c >>= f) s = (.error t, (start (c >>= f) s).2) from Prod.ext h rfl) with
    hc | ⟨a, s₁, hc, hf⟩
  · exact .inl (stops_of_start hc)
  · exact .inr ⟨a, returns_of_start hc, stops_of_start hf⟩

/-! ## What a call does to the state -/

/-- Every state that a call leaves behind is related to the one it was started from. -/
def Moves (R : σ → σ → Prop) (c : Call σ α) : Prop := ∀ s, R s (start c s).2

section moves

variable {R : σ → σ → Prop}

theorem Moves.pure (refl : ∀ s, R s s) (a : α) : Moves R (Pure.pure a : Call σ α) := fun s => refl s

theorem Moves.fail (refl : ∀ s, R s s) (t : Thrown) : Moves R (fail t : Call σ α) := fun s => refl s

theorem Moves.bind (trans : ∀ s s' s'', R s s' → R s' s'' → R s s'') {c : Call σ α} {f : α → Call σ β} (hc : Moves R c)
    (hf : ∀ a, Moves R (f a)) : Moves R (c >>= f) := by
  intro s
  have hs := hc s
  rcases h : start c s with ⟨t | a, s'⟩ <;> rw [h] at hs
  · rwa [start_bind_error h]
  · rw [start_bind_ok h]
    exact trans s s' _ hs (hf a s')

end moves

/-! ## Agreement -/

theorem Matches.refl (hE : ∀ t, E t t) (r : Except Thrown α) : Matches E r r := by
  cases r with
  | error t => exact hE t
  | ok a => rfl

theorem eq_of_matches {r r' : Except Thrown α} (h : Matches (· = ·) r r') : r = r' := by
  cases r <;> cases r' <;> simp_all [Matches]

theorem eq_ok_of_matches {r : Except Thrown α} {a : α} (h : Matches E (.ok a) r) : r = .ok a := by
  cases r with
  | error t => cases h
  | ok b => exact congrArg Except.ok (Eq.symm h)

theorem Agree.pure (a : α) : Agree R E (Pure.pure a) (Pure.pure a) := fun _ _ h => ⟨rfl, h⟩

theorem Agree.fail {t u : Thrown} (h : E t u) : Agree R E (fail t : Call σ α) (fail u) := fun _ _ hR => ⟨h, hR⟩

/-- A bind after calls whose values agree in what `ψ` and `φ` show of them. -/
theorem Agree.bind_on {γ δ : Type} {c : Call σ β} {d : Call τ α} {ψ : β → δ} {φ : α → δ} {f : β → Call σ γ}
    {g : α → Call τ γ} (hc : Agree R E (do let b ← c; Pure.pure (ψ b)) (do let a ← d; Pure.pure (φ a)))
    (hf : ∀ b a, ψ b = φ a → Returns d a → Agree R E (f b) (g a)) : Agree R E (c >>= f) (d >>= g) := by
  intro s t hR
  obtain ⟨hm, hR'⟩ := hc s t hR
  rcases h : start c s with ⟨e | b, s'⟩ <;> rcases h' : start d t with ⟨e' | a, t'⟩
  · rw [start_bind_error h, start_bind_error h'] at hm hR' ⊢
    exact ⟨hm, hR'⟩
  · rw [start_bind_error h, start_bind_ok h'] at hm
    cases hm
  · rw [start_bind_ok h, start_bind_error h'] at hm
    cases hm
  · rw [start_bind_ok h, start_bind_ok h'] at hm hR' ⊢
    exact hf b a hm (returns_of_start h') s' t' hR'

/-- A bind after a call that agrees with another up to a translation of its value. -/
theorem Agree.follow {γ : Type} {c : Call σ β} {d : Call τ α} {φ : α → β} {f : β → Call σ γ} {g : α → Call τ γ}
    (hc : Agree R E c (do let a ← d; Pure.pure (φ a))) (hf : ∀ a, Returns d a → Agree R E (f (φ a)) (g a)) :
    Agree R E (c >>= f) (d >>= g) :=
  Agree.bind_on (ψ := fun b => b) (by rwa [bind_pure]) fun _ a h ha => h ▸ hf a ha

/-- A bind whose continuations agree on every value. -/
theorem Agree.bind {c : Call σ α} {d : Call τ α} {f : α → Call σ β} {g : α → Call τ β} (hc : Agree R E c d)
    (hf : ∀ a, Agree R E (f a) (g a)) : Agree R E (c >>= f) (d >>= g) :=
  Agree.follow (φ := fun a => a) (by rwa [bind_pure]) fun a _ => hf a

/-! ## Outcomes that do not depend on the state -/

/-- From every state the call comes to the outcome. -/
def Always (c : Call σ α) (r : Except Thrown α) : Prop := ∀ s, (start c s).1 = r

/-- From every state the call comes to the same outcome. -/
def Repeatable (c : Call σ α) : Prop := ∀ s t, (start c s).1 = (start c t).1

section always

variable {c : Call σ α} {r : Except Thrown α}

theorem Always.pure (a : α) : Always (Pure.pure a : Call σ α) (.ok a) := fun _ => rfl

theorem Always.fail (t : Thrown) : Always (fail t : Call σ α) (.error t) := fun _ => rfl

theorem Always.ofExcept (r : Except Thrown α) : Always (ofExcept r : Call σ α) r := fun _ => rfl

/-- What follows a call only matters where the call comes to a value. -/
theorem Always.bind {f : α → Call σ β} {g : α → Except Thrown β} (hc : Always c r)
    (hf : ∀ a, r = .ok a → Always (f a) (g a)) : Always (c >>= f) (r >>= g) := by
  intro s
  have hs := hc s
  rcases h : start c s with ⟨t | a, s'⟩ <;> rw [h] at hs
  · rw [start_bind_error h, ← hs]
    rfl
  · rw [start_bind_ok h, hf a hs.symm s', ← hs]
    rfl

theorem Always.bind_ok {f : α → Call σ β} {a : α} {r : Except Thrown β} (hc : Always c (.ok a)) (hf : Always (f a) r) :
    Always (c >>= f) r := hc.bind (g := fun _ => r) fun b hb => by
  cases hb
  exact hf

theorem Always.repeatable (h : Always c r) : Repeatable c := fun s t => (h s).trans (h t).symm

theorem Repeatable.always (h : Repeatable c) (s : σ) : Always c (start c s).1 := fun t => h t s

theorem Repeatable.bind {f : α → Call σ β} (hc : Repeatable c) (hf : ∀ a, Repeatable (f a)) : Repeatable (c >>= f) :=
  fun s _ => ((hc.always s).bind fun a _ => (hf a).always s).repeatable _ _

/-- What a repeatable call may return is what it always comes to. -/
theorem Repeatable.always_of_returns {a : α} (h : Repeatable c) (ha : Returns c a) : Always c (.ok a) := by
  obtain ⟨s, hs⟩ := ha
  exact fun t => (h t s).trans hs

theorem Always.of_agree {d : Call τ α} {t : τ} (h : Agree (fun _ _ => True) (· = ·) c d) (hd : Always d r) :
    Always c r := fun s => (eq_of_matches (h s t trivial).1).trans (hd t)

theorem Always.agree {d : Call τ α} (hc : Always c r) (hd : Always d r) : Agree (fun _ _ => True) (· = ·) c d := by
  intro s t _
  rw [hc s, hd t]
  exact ⟨.refl (fun _ => rfl) _, trivial⟩

theorem Repeatable.agree (h : Repeatable c) : Agree (fun _ _ => True) (· = ·) c c :=
  fun s t hst => (h.always s).agree (h.always s) s t hst

end always

end ArgGuard.Call
