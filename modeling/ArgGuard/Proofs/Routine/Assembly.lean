/-
  ArgGuard.Proofs.Routine.Assembly — how a program is put together.

  Each function that writes statements is taken apart once: what it found where it
  succeeded, and which statements it wrote then. A program exists only where every
  capability has an inline form (`inline_of_program`).
-/

import ArgGuard.Proofs.Routine.Translation

namespace ArgGuard.Plan

open Call

variable {σ : Type} {p : Plan σ}

theorem inlineOf_ok {c : Capability σ} {f : Fragment} : inlineOf c = .ok f ↔ c.inline? = some f := by
  unfold inlineOf
  cases c.inline? <;> simp

/-! ## Steps -/

/-- The statements of a step behind the one that fetches its argument. -/
def settleStmts (i : Nat) (s : Step σ) (f : Fragment) : List Stmt :=
  let cs := checks s.type f (.step i) (.step i)
  match s.default with
  | .value _ => [.whenAbsent i [.takeDefault i] cs]
  | .factory .. => [.whenAbsent i (.makeDefault i :: cs) cs]
  | .none => if s.isRequired then .act (.demandGiven i) :: cs.map .act else [.whenGiven i cs]

theorem stepStmts_ok {i : Nat} {s : Step σ} {out : List Stmt} (h : stepStmts i s = .ok out) :
    ∃ f, s.type.inline? = some f ∧ out = fetchStmt i s.fetch :: settleStmts i s f := by
  obtain ⟨f, hf, h⟩ := except_bind_ok h
  exact ⟨f, inlineOf_ok.mp hf, (Except.ok.inj h).symm⟩

theorem stepsStmts_cons_ok {i : Nat} {s : Step σ} {ss : List (Step σ)} {out : List Stmt}
    (h : stepsStmts i (s :: ss) = .ok out) :
    ∃ here rest, stepStmts i s = .ok here ∧ stepsStmts (i + 1) ss = .ok rest ∧ out = here ++ rest := by
  obtain ⟨here, hhere, h⟩ := except_bind_ok h
  obtain ⟨rest, hrest, h⟩ := except_bind_ok h
  exact ⟨here, rest, hhere, hrest, (Except.ok.inj h).symm⟩

/-! ## Extra arguments -/

theorem extraChecks_ok {b : Blame} {cs : List Action} (h : p.extraChecks b = .ok cs) :
    (p.extras.type? = none ∧ cs = []) ∨
      ∃ t f, p.extras.type? = some t ∧ t.inline? = some f ∧ cs = checks t f .extra b := by
  unfold extraChecks at h
  cases ht : p.extras.type? with
  | none =>
    rw [ht] at h
    exact .inl ⟨rfl, (Except.ok.inj h).symm⟩
  | some t =>
    rw [ht] at h
    obtain ⟨f, hf, h⟩ := except_bind_ok h
    exact .inr ⟨t, f, rfl, inlineOf_ok.mp hf, (Except.ok.inj h).symm⟩

/-- Items are kept behind the container, entries in it or in a record of their own behind it. -/
theorem extraStmts_ok {out : List Stmt} (h : p.extraStmts = .ok out) :
    (p.extras.isKeep = false ∧ out = []) ∨
    p.extras.isKeep = true ∧ ((p.sourceMode = .positional ∧
        ∃ cs, p.extraChecks .position = .ok cs ∧ out = [.keepItems p.steps.length cs]) ∨
      (p.sourceMode = .named ∧ ∃ cs, p.extraChecks .key = .ok cs ∧
        ((p.outputMode = .mapped ∧ out = [.keepEntries p.declared cs .out]) ∨
          (p.outputMode = .orderedList ∧ out = [.newRest, .keepEntries p.declared cs .rest, .pushRest])))) := by
  unfold extraStmts at h
  by_cases hk : p.extras.isKeep = true
  · rw [if_pos hk] at h
    refine .inr ⟨hk, ?_⟩
    cases hm : p.sourceMode with
    | positional =>
      rw [hm] at h
      obtain ⟨cs, hcs, h⟩ := except_bind_ok h
      exact .inl ⟨rfl, cs, hcs, (Except.ok.inj h).symm⟩
    | named =>
      refine .inr ⟨rfl, ?_⟩
      cases ho : p.outputMode with
      | mapped =>
        rw [hm, ho] at h
        obtain ⟨cs, hcs, h⟩ := except_bind_ok h
        exact ⟨cs, hcs, .inl ⟨rfl, (Except.ok.inj h).symm⟩⟩
      | orderedList =>
        rw [hm, ho] at h
        obtain ⟨cs, hcs, h⟩ := except_bind_ok h
        exact ⟨cs, hcs, .inr ⟨rfl, (Except.ok.inj h).symm⟩⟩
  · rw [if_neg hk] at h
    exact .inl ⟨by simpa using hk, (Except.ok.inj h).symm⟩

/-! ## Programs -/

theorem program_ok {g : Program} (h : p.program = .ok g) :
    ∃ steps extras, stepsStmts 0 p.steps = .ok steps ∧ p.extraStmts = .ok extras ∧
      g = ⟨p.name, p.bindings, p.shapeStmts ++ steps ++ p.outStmts ++ extras⟩ := by
  obtain ⟨steps, hsteps, h⟩ := except_bind_ok h
  obtain ⟨extras, hextras, h⟩ := except_bind_ok h
  exact ⟨steps, extras, hsteps, hextras, (Except.ok.inj h).symm⟩

theorem inline_of_stepsStmts {ss : List (Step σ)} {i : Nat} {out : List Stmt} (h : stepsStmts i ss = .ok out) :
    ∀ s ∈ ss, ∃ f, s.type.inline? = some f := by
  induction ss generalizing i out with
  | nil => simp
  | cons s ss ih =>
    obtain ⟨here, rest, hhere, hrest, _⟩ := stepsStmts_cons_ok h
    obtain ⟨f, hf, _⟩ := stepStmts_ok hhere
    exact List.forall_mem_cons.mpr ⟨⟨f, hf⟩, ih hrest⟩

theorem inline_of_extraStmts {out : List Stmt} (h : p.extraStmts = .ok out) {t : Capability σ}
    (ht : p.extras.type? = some t) : ∃ f, t.inline? = some f := by
  have hform : ∀ {b : Blame} {cs : List Action}, p.extraChecks b = .ok cs → ∃ f, t.inline? = some f := by
    intro b cs hcs
    rcases extraChecks_ok hcs with ⟨hnone, _⟩ | ⟨c, f, hc, hf, _⟩
    · cases hnone.symm.trans ht
    · cases hc.symm.trans ht
      exact ⟨f, hf⟩
  rcases extraStmts_ok h with ⟨hk, _⟩ | ⟨_, ⟨_, cs, hcs, _⟩ | ⟨_, cs, hcs, _⟩⟩
  · cases he : p.extras <;> simp_all [Extras.type?, Extras.isKeep]
  · exact hform hcs
  · exact hform hcs

/-- A plan has a program only if every capability has an inline form. -/
theorem inline_of_program {g : Program} (hg : p.program = .ok g) : ∀ c ∈ p.capabilities, ∃ f, c.inline? = some f := by
  obtain ⟨steps, extras, hsteps, hextras, _⟩ := program_ok hg
  intro c hc
  rcases List.mem_append.mp hc with hc | hc
  · obtain ⟨s, hs, rfl⟩ := List.mem_map.mp hc
    exact inline_of_stepsStmts hsteps s hs
  · exact inline_of_extraStmts hextras (by simpa using hc)

end ArgGuard.Plan
