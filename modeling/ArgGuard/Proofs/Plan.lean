/-
  ArgGuard.Proofs.Plan — what planning establishes.

  The plan of a set that was read, under options that were accepted, is well made
  (`make_wellMade`). The inline strategy is chosen only where code generation is allowed and
  every capability has an inline form (`inline_of_strategy`), so that the plan has a program
  (`exists_program`), whose text compiles where the text of every inline form does
  (`program_wellFormed`). Building gives the run of that program where generated code may
  run, and the generic loop where it may not or where the plan asks for it (`build_cases`).
-/

import ArgGuard.Proofs.Routine.Simulation
import ArgGuard.Proofs.Spec.Declared
import ArgGuard.Validator

namespace ArgGuard

open Call

variable {σ : Type} {env : Surroundings σ}

/-! ## Accepted options -/

namespace Options

theorem identical_text {v : Value} {s : String} : v.identical (.text s) = true ↔ v = .text s := by
  cases v <;> simp [Value.identical]

theorem identical_false {v : Value} : v.identical (.bool false) = true ↔ v = .bool false := by
  cases v <;> simp [Value.identical]

theorem require_ok {ok : Bool} {fault : OptionFault} {u : Unit} (h : require ok fault = .ok u) : ok = true := by
  unfold require at h
  split at h
  · assumption
  · cases h

/-- A slurpy option that keeps nothing selects nothing. -/
theorem slurpy_off {v : Value} (h : v.isUndefined = true ∨ v.identical (.bool false) = true) :
    (match v with
      | .bool true => Slurpy.on
      | s => match env.capability? s with
        | some type => .checked type
        | none => .off) = Slurpy.off := by
  rcases h with h | h
  · rw [Value.eq_undefined h]
    rfl
  · rw [identical_false.mp h]
    rfl

theorem sourceMode_positional {v : Value} (h : (mode? SourceMode.ofText? v).getD .named = .positional) :
    v.identical (.text "positional") = true := by
  cases v <;> simp [mode?, SourceMode.ofText?] at h
  rw [identical_text]
  split at h
  · cases h
  · split at h
    · rename_i hp
      rw [hp]
    · cases h

theorem outputMode_orderedList {v : Value} (h : v.identical (.text "ordered-list") = true) :
    (mode? OutputMode.ofText? v).getD .mapped = .orderedList := by
  rw [identical_text.mp h]
  rfl

/-- Items beside positional parameters are kept in a list only. -/
theorem outputMode_of_positional {given : Value} {o : Options σ} (h : resolve env given = .ok o)
    (hs : o.sourceMode = .positional) : o.slurpy = .off ∨ o.outputMode = .orderedList := by
  unfold resolve at h
  generalize (if given.isUndefined then Value.record [] else given) = v at h
  simp only [bind, Except.bind] at h
  split at h
  · cases h
  rename_i hvalid
  cases h
  have hreq : ((v.get "slurpy").isUndefined || (v.get "slurpy").identical (.bool false)
      || !(v.get "sourceMode").identical (.text "positional")
      || (v.get "outputMode").identical (.text "ordered-list")) = true := by
    unfold validate at hvalid
    split at hvalid
    · cases hvalid
    simp only [bind, Except.bind] at hvalid
    iterate 7
      split at hvalid
      · cases hvalid
    rename_i h
    exact require_ok h
  simp only [Bool.or_eq_true, Bool.not_eq_true', sourceMode_positional hs, Bool.true_eq_false, or_false] at hreq
  rcases hreq with hreq | hreq
  · exact .inl (slurpy_off hreq)
  · exact .inr (outputMode_orderedList hreq)

/-- The options of a validator that gives none. -/
def standard : Options σ := ⟨.named, .mapped, true, .off, "validator", true, none⟩

/-- The same, but for extra arguments, which are ignored. -/
def lenient : Options σ := { standard with strict := false }

theorem resolve_undefined (h : env.debugByDefault = false) : resolve env .undefined = .ok standard := by
  have hsink : sink? env .undefined = none := by simp [sink?, h]
  show Except.ok { (standard : Options σ) with debug? := sink? env .undefined } = _
  rw [hsink]
  rfl

end Options

/-! ## Plans -/

namespace Plan

theorem isKeep_extrasOf {o : Options σ} (h : o.slurpy = .off) : (extrasOf o).isKeep = false := by
  unfold extrasOf
  rw [h]
  simp only
  split <;> rfl

@[simp] theorem declared_make (set : ParameterSet σ) (o : Options σ) : (make set o).declared = set.names := by
  simp [declared, make, ParameterSet.names, step]

theorem isKeep_make (set : ParameterSet σ) (o : Options σ) :
    (make set o).extras.isKeep = match o.slurpy with
      | .off => false
      | _ => true := by
  show (extrasOf o).isKeep = _
  cases hs : o.slurpy with
  | off => exact isKeep_extrasOf hs
  | on => rw [extrasOf, hs]; rfl
  | checked t => rw [extrasOf, hs]; rfl

/-- Under accepted options, positional arguments are kept in a list only. -/
theorem keepsOrder_make {given : Value} {o : Options σ} (ho : Options.resolve env given = .ok o) (set : ParameterSet σ) :
    (make set o).KeepsOrder := by
  intro hs hk
  rcases Options.outputMode_of_positional ho hs with h | h
  · rw [isKeep_make, h] at hk
    cases hk
  · exact h

theorem steps_make {set : ParameterSet σ} {o : Options σ} {s : Step σ} (h : s ∈ (make set o).steps) :
    ∃ spec ∈ set.specs, s = step o.sourceMode spec := by
  obtain ⟨spec, hs, rfl⟩ := List.mem_map.mp h
  exact ⟨spec, hs, rfl⟩

/-- The plan of a set that was read under accepted options. -/
theorem make_wellMade {set : ParameterSet σ} (hset : set.Declared env) (hflags : set.FlagsBoolean) {given : Value}
    {o : Options σ} (ho : Options.resolve env given = .ok o) : (make set o).WellMade where
  fetch s hs := by
    obtain ⟨spec, _, rfl⟩ := steps_make hs
    rfl
  kept := keepsOrder_make ho set
  required s hs hr := by
    obtain ⟨spec, hspec, rfl⟩ := steps_make hs
    exact ParameterSet.required_default hset hflags hspec hr
  static s hs v hd hc := by
    obtain ⟨spec, hspec, rfl⟩ := steps_make hs
    exact ((ParameterSet.sound_of_mem hset hspec).static v hd).2.2.2 hc

/-! ## The loop does not look at the strategy -/

section strategy

variable (p : Plan σ) (strategy : Strategy) (fallback? : Option String)

theorem settleFrom_strategy (args : Value) (i : Nat) (ss : List (Step σ)) :
    settleFrom { p with strategy, fallback? } args i ss = settleFrom p args i ss := by
  induction ss generalizing i with
  | nil => rfl
  | cons s ss ih =>
    simp only [settleFrom, ih]
    rfl

theorem collectNamed_strategy (es out : Entries Value) :
    collectNamed { p with strategy, fallback? } es out = collectNamed p es out := by
  induction es generalizing out with
  | nil => rfl
  | cons e es ih =>
    simp only [collectNamed, ih]
    rfl

theorem collectItems_strategy (i : Nat) (items : List (Option Value)) :
    collectItems { p with strategy, fallback? } i items = collectItems p i items := by
  induction items generalizing i with
  | nil => rfl
  | cons o items ih =>
    simp only [collectItems, ih]
    rfl

theorem generic_strategy (args : Value) : ({ p with strategy, fallback? } : Plan σ).generic args = p.generic args := by
  simp only [generic_eq, finish, settleFrom_strategy, collectNamed_strategy, collectItems_strategy]
  rfl

end strategy

theorem generic_codegen (set : ParameterSet σ) (o : Options σ) (args : Value) :
    (make set { o with codegen := false }).generic args = (make set o).generic args :=
  generic_strategy (make set o) .generic (some "code generation disabled") args

/-! ## The inline strategy -/

theorem inline_of_strategy {set : ParameterSet σ} {o : Options σ} (h : (make set o).strategy = .inline) :
    o.codegen = true ∧ ∀ c ∈ (make set o).capabilities, c.inline?.isSome = true := by
  have hf : fallbackOf (make set o).steps (extrasOf o) o.codegen = none := by
    simp only [make] at h ⊢
    split at h
    · cases h
    · rename_i hn
      simpa using hn
  unfold fallbackOf at hf
  split at hf
  · cases hf
  rename_i hcodegen
  split at hf
  · cases hf
  rename_i hfind
  refine ⟨by simpa using hcodegen, fun c hc => ?_⟩
  rcases List.mem_append.mp hc with hc | hc
  · obtain ⟨s, hs, rfl⟩ := List.mem_map.mp hc
    simpa [Step.inline, Option.isSome_iff_ne_none] using List.find?_eq_none.mp hfind s hs
  · have he : (extrasOf o).type? = some c := by simpa [make] using hc
    rw [he] at hf
    simp only at hf
    split at hf
    · assumption
    · cases hf

theorem type?_extrasOf {o : Options σ} (h : o.slurpy = .off) : (extrasOf o).type? = none := by
  unfold extrasOf
  rw [h]
  simp only
  split <;> rfl

/-- The capabilities of bookings are stock ones. -/
theorem capabilities_booking {o : Options Nat} (ho : o.slurpy = .off) {c : Capability Nat}
    (h : c ∈ (make ParameterSet.booking o).capabilities) : ∃ (s : Capability.Scalar) (id : Nat), c = s.capability id := by
  have : c = Capability.Scalar.nonEmptyStr.capability 1 ∨ c = Capability.Scalar.bool.capability 2 := by
    simpa [capabilities, make, step, ParameterSet.booking, type?_extrasOf ho] using h
  rcases this with rfl | rfl <;> exact ⟨_, _, rfl⟩

theorem exists_inlineOf {c : Capability σ} (h : c.inline?.isSome = true) : ∃ f, inlineOf c = .ok f := by
  obtain ⟨f, hf⟩ := Option.isSome_iff_exists.mp h
  exact ⟨f, inlineOf_ok.mpr hf⟩

theorem exists_stepsStmts {ss : List (Step σ)} (h : ∀ s ∈ ss, s.type.inline?.isSome = true) (i : Nat) :
    ∃ out, stepsStmts i ss = .ok out := by
  induction ss generalizing i with
  | nil => exact ⟨[], rfl⟩
  | cons s ss ih =>
    obtain ⟨f, hf⟩ := exists_inlineOf (h s List.mem_cons_self)
    obtain ⟨rest, hrest⟩ := ih (fun t ht => h t (List.mem_cons_of_mem _ ht)) (i + 1)
    simp only [stepsStmts, stepStmts, hf, hrest, bind, Except.bind]
    exact ⟨_, rfl⟩

theorem exists_extraChecks {p : Plan σ} (h : ∀ t, p.extras.type? = some t → t.inline?.isSome = true) (b : Blame) :
    ∃ cs, p.extraChecks b = .ok cs := by
  unfold extraChecks
  cases ht : p.extras.type? with
  | none => exact ⟨[], rfl⟩
  | some t =>
    obtain ⟨f, hf⟩ := exists_inlineOf (h t ht)
    simp only [hf, bind, Except.bind]
    exact ⟨_, rfl⟩

/-- A plan whose capabilities all have an inline form has a program. -/
theorem exists_program {p : Plan σ} (h : ∀ c ∈ p.capabilities, c.inline?.isSome = true) : ∃ g, p.program = .ok g := by
  obtain ⟨steps, hsteps⟩ := exists_stepsStmts (fun s hs => h _ (mem_capabilities_step hs)) 0
  obtain ⟨key, hkey⟩ := exists_extraChecks (fun t ht => h t (mem_capabilities_extras ht)) .key
  obtain ⟨position, hposition⟩ := exists_extraChecks (fun t ht => h t (mem_capabilities_extras ht)) .position
  simp only [program, extraStmts, hsteps, hkey, hposition, bind, Except.bind]
  cases p.extras.isKeep <;> cases p.sourceMode <;> cases p.outputMode <;> exact ⟨_, rfl⟩

/-! ## The choice of a strategy

  Modes and flags have no say in it. -/

theorem isSome_fallbackOf (steps : List (Step σ)) (extras : Extras σ) (codegen : Bool) :
    (fallbackOf steps extras codegen).isSome = !(codegen && steps.all (·.inline) && extras.inline) := by
  have hfind : steps.all (·.inline) = (steps.find? fun s => !s.inline).isNone := by
    rw [← Option.not_isSome, List.isSome_find?, List.all_eq_not_any_not]
  unfold fallbackOf Extras.inline
  rw [hfind]
  cases codegen with
  | false => rfl
  | true =>
    cases steps.find? fun s => !s.inline with
    | some s => rfl
    | none =>
      cases extras.type? with
      | none => rfl
      | some t => cases ht : t.inline?.isSome <;> simp [ht]

/-- A plan is specialized when code may be generated and all that it uses has an inline form. -/
theorem strategy_eq_inline {set : ParameterSet σ} {o : Options σ} : (make set o).strategy = .inline ↔
    o.codegen = true ∧ (∀ p ∈ set.specs, p.type.inline?.isSome = true) ∧ (extrasOf o).inline = true := by
  have hall : (set.specs.map (step o.sourceMode)).all (·.inline) = set.specs.all fun p => p.type.inline?.isSome :=
    List.all_map
  have hsome := isSome_fallbackOf (set.specs.map (step o.sourceMode)) (extrasOf o) o.codegen
  simp only [make]
  rw [hsome, hall]
  cases o.codegen <;> cases hspecs : (set.specs.all fun p => p.type.inline?.isSome) <;>
    cases (extrasOf o).inline <;> simp_all

theorem strategy_congr {set : ParameterSet σ} {o o' : Options σ} (hcodegen : o'.codegen = o.codegen)
    (htype : (extrasOf o').type? = (extrasOf o).type?) : (make set o').strategy = (make set o).strategy := by
  have hall : ∀ mode, (set.specs.map (step mode)).all (·.inline) = set.specs.all fun p => p.type.inline?.isSome :=
    fun mode => List.all_map
  have hsome : (fallbackOf (set.specs.map (step o'.sourceMode)) (extrasOf o') o'.codegen).isSome =
      (fallbackOf (set.specs.map (step o.sourceMode)) (extrasOf o) o.codegen).isSome := by
    rw [isSome_fallbackOf, isSome_fallbackOf, hall, hall, hcodegen, Extras.inline, htype]
    rfl
  simp only [make, hsome]

/-! ## Text that compiles -/

theorem checks_wellFormed {c : Capability σ} {f : Fragment} (h : f.wellFormed = true) (x : Var) (b : Blame) :
    ∀ a ∈ checks c f x b, a.wellFormed = true := by
  intro a ha
  unfold checks at ha
  rcases List.mem_append.mp ha with ha | ha
  · split at ha
    · cases List.mem_singleton.mp ha
      rfl
    · cases ha
  · cases List.mem_singleton.mp ha
    exact h

theorem stepStmts_wellFormed {i : Nat} {s : Step σ} (h : ∀ f, s.type.inline? = some f → f.wellFormed = true)
    {out : List Stmt} (ho : stepStmts i s = .ok out) : ∀ t ∈ out, t.wellFormed = true := by
  obtain ⟨f, hf, rfl⟩ := stepStmts_ok ho
  have hcs := checks_wellFormed (c := s.type) (h f hf) (.step i) (.step i)
  have hall : (checks s.type f (.step i) (.step i)).all (·.wellFormed) = true := List.all_eq_true.mpr hcs
  intro t ht
  rcases List.mem_cons.mp ht with rfl | ht
  · cases s.fetch <;> rfl
  · unfold settleStmts at ht
    split at ht
    · cases List.mem_singleton.mp ht
      simpa [Stmt.wellFormed, Action.wellFormed] using hcs
    · cases List.mem_singleton.mp ht
      simpa [Stmt.wellFormed, Action.wellFormed] using hcs
    · split at ht
      · rcases List.mem_cons.mp ht with rfl | ht
        · rfl
        · obtain ⟨a, ha, rfl⟩ := List.mem_map.mp ht
          exact hcs a ha
      · cases List.mem_singleton.mp ht
        exact hall

theorem stepsStmts_wellFormed {ss : List (Step σ)}
    (h : ∀ s ∈ ss, ∀ f, s.type.inline? = some f → f.wellFormed = true) {i : Nat} {out : List Stmt}
    (ho : stepsStmts i ss = .ok out) : ∀ t ∈ out, t.wellFormed = true := by
  induction ss generalizing i out with
  | nil =>
    cases ho
    intro t ht
    cases ht
  | cons s ss ih =>
    obtain ⟨here, rest, hhere, hrest, rfl⟩ := stepsStmts_cons_ok ho
    intro t ht
    rcases List.mem_append.mp ht with ht | ht
    · exact stepStmts_wellFormed (h s List.mem_cons_self) hhere t ht
    · exact ih (fun s hs => h s (List.mem_cons_of_mem _ hs)) hrest t ht

theorem extraChecks_wellFormed {p : Plan σ}
    (h : ∀ c, p.extras.type? = some c → ∀ f, c.inline? = some f → f.wellFormed = true) {b : Blame} {cs : List Action}
    (hcs : p.extraChecks b = .ok cs) : cs.all (·.wellFormed) = true := by
  rcases extraChecks_ok hcs with ⟨_, rfl⟩ | ⟨t, f, ht, hf, rfl⟩
  · rfl
  · exact List.all_eq_true.mpr (checks_wellFormed (h t ht f hf) _ _)

theorem extraStmts_wellFormed {p : Plan σ}
    (h : ∀ c, p.extras.type? = some c → ∀ f, c.inline? = some f → f.wellFormed = true) {out : List Stmt}
    (ho : p.extraStmts = .ok out) : ∀ t ∈ out, t.wellFormed = true := by
  rcases extraStmts_ok ho with ⟨_, rfl⟩ | ⟨_, ⟨_, cs, hcs, rfl⟩ | ⟨_, cs, hcs, ⟨_, rfl⟩ | ⟨_, rfl⟩⟩⟩
  · intro t ht
    cases ht
  all_goals simpa [Stmt.wellFormed] using extraChecks_wellFormed h hcs

theorem putStmts_wellFormed (i : Nat) (ss : List (Step σ)) : ∀ t ∈ putStmts i ss, t.wellFormed = true := by
  induction ss generalizing i with
  | nil =>
    intro t ht
    cases ht
  | cons s ss ih =>
    intro t ht
    rcases List.mem_cons.mp ht with rfl | ht
    · split <;> rfl
    · exact ih (i + 1) t ht

/-- The text of a program compiles when the text of every inline form does. -/
theorem program_wellFormed {p : Plan σ} (h : ∀ c ∈ p.capabilities, ∀ f, c.inline? = some f → f.wellFormed = true)
    {g : Program} (hg : p.program = .ok g) : g.wellFormed = true := by
  obtain ⟨steps, extras, hsteps, hextras, rfl⟩ := program_ok hg
  have hshape : ∀ t ∈ p.shapeStmts, t.wellFormed = true := by
    unfold shapeStmts
    split <;> (try split) <;> simp [Stmt.wellFormed]
  have hout : ∀ t ∈ p.outStmts, t.wellFormed = true := by
    unfold outStmts
    split
    · simpa [Stmt.wellFormed] using putStmts_wellFormed 0 p.steps
    · simp [Stmt.wellFormed]
  have hstep := stepsStmts_wellFormed (fun s hs => h _ (mem_capabilities_step hs)) hsteps
  have hextra := extraStmts_wellFormed (fun c hc => h c (mem_capabilities_extras hc)) hextras
  simp only [Program.wellFormed, List.all_append, Bool.and_eq_true, List.all_eq_true]
  exact ⟨⟨⟨hshape, hstep⟩, hout⟩, hextra⟩

/-! ## Building -/

/-- What building comes to: the run of a program that compiles, where generated code may run,
or the generic loop. -/
theorem build_cases {p : Plan σ} {refusal? : Option String} {sink? : Option (Sink σ)} {b : Built σ}
    (h : Returns (p.build refusal? sink?) b) :
    (p.strategy = .generic ∨ refusal?.isSome = true) ∧ b = p.builtGeneric ∨
    p.strategy = .inline ∧ refusal? = none ∧ ∃ g, p.program = .ok g ∧ g.wellFormed = true ∧
      b = ⟨p.run g, .inline, some g.source⟩ := by
  unfold build at h
  cases hs : p.strategy with
  | generic =>
    rw [hs] at h
    obtain ⟨_, _, h⟩ := returns_bind h
    exact .inl ⟨.inl rfl, returns_pure h⟩
  | inline =>
    rw [hs] at h
    simp only at h
    split at h
    · exact absurd h not_returns_fail
    rename_i g hg
    split at h
    · obtain ⟨_, _, h⟩ := returns_bind h
      exact .inl ⟨.inr rfl, returns_pure h⟩
    · split at h
      · rename_i hw
        obtain ⟨_, _, h⟩ := returns_bind h
        exact .inr ⟨rfl, rfl, g, hg, hw, returns_pure h⟩
      · exact absurd h not_returns_fail

/-- What building comes to, it comes to without a sink from every state, and leaves the state alone. -/
theorem start_build_silent {p : Plan σ} {refusal? : Option String} {sink? : Option (Sink σ)} {b : Built σ}
    (h : Returns (p.build refusal? sink?) b) (s : σ) : start (p.build refusal? none) s = (.ok b, s) := by
  unfold build at h ⊢
  cases hs : p.strategy with
  | generic =>
    rw [hs] at h
    obtain ⟨_, _, h⟩ := returns_bind h
    rw [returns_pure h]
    rfl
  | inline =>
    rw [hs] at h
    simp only at h ⊢
    split at h
    · exact absurd h not_returns_fail
    split at h
    · obtain ⟨_, _, h⟩ := returns_bind h
      rw [returns_pure h]
      rfl
    · split at h
      · rename_i hw
        obtain ⟨_, _, h⟩ := returns_bind h
        rw [returns_pure h, if_pos hw]
        rfl
      · exact absurd h not_returns_fail

end Plan

/-- A compiled validator runs the routine that building came to. -/
theorem Validator.routine_of_compile {set : ParameterSet σ} {o : Options σ} {descriptor : String} {v : Validator σ}
    (h : Returns (compile env set o descriptor) v) :
    ∃ b, Returns ((Plan.make set o).build env.refusal? o.debug?) b ∧ v.routine = b.routine ∧ v.strategy = b.strategy := by
  obtain ⟨_, _, h⟩ := returns_bind h
  obtain ⟨b, hb, h⟩ := returns_bind h
  cases returns_pure h
  exact ⟨b, hb, rfl, rfl⟩

theorem Validator.strategy_of_compile {set : ParameterSet σ} {o : Options σ} {descriptor : String} {v : Validator σ}
    (h : Returns (compile env set o descriptor) v) :
    v.strategy = if env.refusal?.isSome then .generic else (Plan.make set o).strategy := by
  obtain ⟨b, hb, _, hstrategy⟩ := routine_of_compile h
  rw [hstrategy]
  rcases Plan.build_cases hb with ⟨hs | hr, rfl⟩ | ⟨hs, hr, _, _, _, rfl⟩
  · rw [hs, ite_self]
    rfl
  · rw [if_pos hr]
    rfl
  · rw [hr, hs]
    rfl

/-- What compiling comes to does not depend on the state or on the sink: without one it is
reached from every state. -/
theorem Validator.start_compile_silent {set : ParameterSet σ} {o : Options σ} {descriptor : String} {v : Validator σ}
    (h : Returns (compile env set o descriptor) v) (s : σ) :
    start (compile env set { o with debug? := none } descriptor) s = (.ok v, s) := by
  obtain ⟨_, _, h⟩ := returns_bind h
  obtain ⟨b, hb, h⟩ := returns_bind h
  rw [returns_pure h]
  have hbuild : start ((Plan.make set { o with debug? := none }).build env.refusal? none) s = (.ok b, s) :=
    Plan.start_build_silent hb s
  exact start_bind_ok hbuild

end ArgGuard
