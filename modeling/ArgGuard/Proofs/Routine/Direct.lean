/-
  ArgGuard.Proofs.Routine.Direct — both routines without the branches that no call takes.

  A routine finds the step that it complains about by its index, asks for the capability of
  extra arguments where there may be none, looks up what is bound to a variable and appends
  to a result that may be a record. Each of these can go wrong, and none does: `direct` has
  the step in hand, the capability and the container, and it is what both routines do, told
  only how a value has to pass and which values are written untested.

  The loop is followed step by step (`loop_eq_direct`), the program statement by statement:
  the statements of a step settle it (`run_stepStmts`), those of all steps settle all
  (`run_stepsStmts`), the statements after them build the container (`run_outStmts`) and keep
  the extra arguments (`run_extraStmts`), and together they are the routine (`run_eq_direct`).
-/

import ArgGuard.Proofs.Routine.Assembly
import ArgGuard.Proofs.Routine.Phases

namespace ArgGuard

open Call

variable {σ : Type}

/-- How a value has to pass: it is handed on, or blamed with a fault. -/
abbrev Judge (σ : Type) := Capability σ → Value → (String → Reason → CallFault) → Call σ Value

namespace Plan

/-- A value passes if it meets the inline condition of its capability, where there is one. -/
def conditioned : Judge σ := fun c v fault =>
  match c.inline? with
  | some f => demanded c f v fault
  | none => checked c v fault

theorem conditioned_eq {c : Capability σ} {f : Fragment} (h : c.inline? = some f) (v : Value)
    (fault : String → Reason → CallFault) : conditioned c v fault = demanded c f v fault := by
  unfold conditioned
  rw [h]

section direct

variable (judge : Judge σ) (p : Plan σ)

def judgeStep (s : Step σ) (v : Value) : Call σ Value := do
  let v ← s.type.coerced v
  judge s.type v (p.stepFault s v)

/-- The value that a step settles on. -/
def settleStep (args : Value) (s : Step σ) : Call σ Value :=
  let v := fetch s args
  if v.isUndefined then
    match s.default with
    | .value d => pure d
    | .factory _ make => do p.judgeStep judge s (← make)
    | .none => if s.isRequired then fail (.missing s.name s.position p.name) else pure .undefined
  else p.judgeStep judge s v

def settleSteps (args : Value) : List (Step σ) → Call σ (List Value)
  | [] => pure []
  | s :: ss => do
    let v ← p.settleStep judge args s
    return v :: (← settleSteps args ss)

/-- A value outside the declared ones, judged where a capability is given. -/
def judgeExtra (label : String) (v : Value) : Call σ Value :=
  match p.extras.type? with
  | some t => do
    let v ← t.coerced v
    judge t v (p.extraFault label v)
  | none => pure v

def judgeExtras : List (String × Value) → Call σ (List (String × Value))
  | [] => pure []
  | (k, v) :: es => do
    let v ← p.judgeExtra judge k v
    return (k, v) :: (← judgeExtras es)

/-- The extra arguments where they are kept. -/
def judgeKept (args : Value) : Call σ (List (String × Value)) :=
  if p.extras.isKeep then p.judgeExtras judge (p.extraArguments args) else pure []

/-- Validation with everything in hand. -/
def direct (trusted : Step σ → Bool) (args : Value) : Call σ Value := do
  p.receive args
  let values ← p.settleSteps judge args p.steps
  let kept ← p.judgeKept judge args
  return p.extended (p.outputOf trusted values) kept

end direct

theorem length_settleSteps {judge : Judge σ} {p : Plan σ} {args : Value} {ss : List (Step σ)} {vs : List Value}
    (h : Returns (p.settleSteps judge args ss) vs) : ss.length = vs.length := by
  induction ss generalizing vs with
  | nil =>
    cases returns_pure h
    rfl
  | cons s ss ih =>
    obtain ⟨v, _, h⟩ := returns_bind h
    obtain ⟨us, hus, h⟩ := returns_bind h
    cases returns_pure h
    rw [List.length_cons, List.length_cons, ih hus]

theorem judgeExtras_names {judge : Judge σ} {p : Plan σ} {es kept : List (String × Value)}
    (h : Returns (p.judgeExtras judge es) kept) :
    kept.map (·.1) = es.map (·.1) := by
  induction es generalizing kept with
  | nil =>
    cases returns_pure h
    rfl
  | cons e es ih =>
    obtain ⟨v, _, h⟩ := returns_bind h
    obtain ⟨rest, hrest, h⟩ := returns_bind h
    cases returns_pure h
    rw [List.map_cons, List.map_cons, ih hrest]

/-! ## The loop -/

/-- A step is found at its index. -/
theorem settle_eq_settleStep {p : Plan σ} {i : Nat} {s : Step σ} (hs : p.steps[i]? = some s) (args : Value) :
    p.settle i s args = p.settleStep checked args s := by
  have hscreen : ∀ v, screen s.type v (p.complainMismatch i) = p.judgeStep checked s v :=
    screen_eq s.type (p.stepFault s) fun w => complainMismatch_eq hs w
  unfold settle settleStep
  cases s.default <;> simp only [hscreen, complainMissing_eq hs]

theorem settleFrom_eq_settleSteps {p : Plan σ} (args : Value) (ss : List (Step σ)) (i : Nat)
    (hi : ∀ k, p.steps[i + k]? = ss[k]?) : p.settleFrom args i ss = p.settleSteps checked args ss := by
  induction ss generalizing i with
  | nil => rfl
  | cons s ss ih =>
    have hs : p.steps[i]? = some s := by simpa using hi 0
    have hnext : ∀ k, p.steps[i + 1 + k]? = ss[k]? := fun k => by
      have := hi (k + 1)
      rwa [List.getElem?_cons_succ, ← Nat.add_assoc, Nat.add_right_comm] at this
    rw [settleFrom, settleSteps, settle_eq_settleStep hs, ih (i + 1) hnext]

theorem screenExtra_eq_judgeExtra (p : Plan σ) (label : String) (v : Value) :
    p.screenExtra label v = p.judgeExtra checked label v := by
  unfold screenExtra judgeExtra
  cases ht : p.extras.type? with
  | none => rfl
  | some t => exact screen_eq t (p.extraFault label) (fun w => complainExtraMismatch_eq ht label w) v

theorem screenAll_eq_judgeExtras (p : Plan σ) (es : List (String × Value)) :
    p.screenAll es = p.judgeExtras checked es := by
  induction es with
  | nil => rfl
  | cons e es ih => rw [screenAll, judgeExtras, screenExtra_eq_judgeExtra, ih]

theorem loop_eq_direct (p : Plan σ) (trusted : Step σ → Bool) (args : Value) :
    p.loop trusted args = p.direct checked trusted args := by
  unfold loop direct keepExtras judgeKept
  rw [settleFrom_eq_settleSteps args p.steps 0 (by simp), screenAll_eq_judgeExtras]

/-- The generic routine trusts no step. -/
theorem generic_eq_direct {p : Plan σ} (hp : p.KeepsOrder) (args : Value) :
    p.generic args = p.direct checked (fun _ => false) args := by
  rw [← loop_eq_direct, loop_eq_generic hp]
  intro values hvalues
  exact (settled_of_returns hvalues).imp fun _ _ _ h => by cases h

end Plan

/-! ## Frames -/

namespace Frame

@[simp] theorem read_write (f : Frame) (x : Var) (v : Value) : (f.write x v).read x = v := by
  cases x <;> simp [read, write]

@[simp] theorem step_write (f : Frame) (i : Nat) (v : Value) : (f.write (.step i) v).step i = v := by
  simp [write]

theorem step_write_ne (f : Frame) {i j : Nat} (h : j ≠ i) (v : Value) : (f.write (.step i) v).step j = f.step j := by
  simp [write, h]

@[simp] theorem write_write (f : Frame) (x : Var) (v w : Value) : (f.write x v).write x w = f.write x w := by
  cases x with
  | extra => rfl
  | step i =>
    simp only [write, mk.injEq, and_self, and_true]
    funext j
    split <;> rfl

@[simp] theorem write_read (f : Frame) (x : Var) : f.write x (f.read x) = f := by
  cases x with
  | extra => rfl
  | step i =>
    have : (fun j => if j = i then f.step i else f.step j) = f.step := by
      funext j
      split
      · rename_i h
        rw [h]
      · rfl
    simp only [write, read, this]

@[simp] theorem label_write (f : Frame) (x : Var) (v : Value) : (f.write x v).label = f.label := by cases x <;> rfl

@[simp] theorem out_write (f : Frame) (x : Var) (v : Value) : (f.write x v).out = f.out := by cases x <;> rfl

/-- Writes values to the steps from the `i`-th on. -/
def fill (f : Frame) : Nat → List Value → Frame
  | _, [] => f
  | i, v :: vs => (f.write (.step i) v).fill (i + 1) vs

theorem step_fill_of_lt (f : Frame) (vs : List Value) {i j : Nat} (h : j < i) : (f.fill i vs).step j = f.step j := by
  induction vs generalizing f i with
  | nil => rfl
  | cons v vs ih => rw [fill, ih _ (by omega), step_write_ne _ (by omega)]

theorem step_fill (f : Frame) (vs : List Value) (i k : Nat) (h : k < vs.length) :
    (f.fill i vs).step (i + k) = vs[k] := by
  induction vs generalizing f i k with
  | nil => simp at h
  | cons v vs ih =>
    rw [fill]
    cases k with
    | zero => rw [step_fill_of_lt _ _ (by omega)]; simp
    | succ k =>
      have := ih (f.write (.step i) v) (i + 1) k (by simpa using h)
      simpa [Nat.add_assoc, Nat.add_comm 1 k] using this

end Frame

namespace Plan

/-! ## Statements in sequence -/

theorem runStmts_append (p : Plan σ) (args : Value) (f : Frame) (ss ts : List Stmt) :
    p.runStmts args f (ss ++ ts) = (do let f ← p.runStmts args f ss; p.runStmts args f ts) := by
  induction ss generalizing f with
  | nil => simp [runStmts]
  | cons s ss ih => simp only [List.cons_append, runStmts, ih, bind_assoc]

theorem runStmts_acts (p : Plan σ) (args : Value) (f : Frame) (as : List Action) :
    p.runStmts args f (as.map .act) = p.runActions f as := by
  induction as generalizing f with
  | nil => rfl
  | cons a as ih => simp only [List.map_cons, runStmts, runActions, runStmt, ih]

theorem runStmts_single (p : Plan σ) (args : Value) (f : Frame) (s : Stmt) :
    p.runStmts args f [s] = p.runStmt args f s := by simp [runStmts]

/-! ## Coercion and inline condition -/

/-- Coercion and condition together settle the variable; a rejection is blamed on the
capability that is bound to it. -/
theorem runActions_checks {p : Plan σ} {x : Var} {c : Capability σ} (hx : p.bound x = some c) (fr : Fragment)
    (f : Frame) (b : Blame) (fault : Value → String → Reason → CallFault)
    (hb : ∀ (g : Frame) v, g.label = f.label → (p.complain g v b : Call σ Frame) = blame c v (fault v)) :
    p.runActions f (checks c fr x b) = (do
      let v ← c.coerced (f.read x)
      let v ← demanded c fr v (fault v)
      pure (f.write x v)) := by
  have demand : ∀ g : Frame, g.label = f.label → p.runActions g [.demand x fr b]
      = (do let v ← demanded c fr (g.read x) (fault (g.read x)); pure (g.write x v)) := by
    intro g hg
    simp only [runActions, runAction, demanded, bind_assoc]
    rcases fr.holds (g.read x) with t | b
    · rfl
    · cases b <;> simp only [ofExcept_ok, pure_bind, bind_pure, Bool.false_eq_true, if_true, if_false, hb _ _ hg,
        blame_bind, Frame.write_read]
  unfold checks
  cases hc : c.coerce? with
  | none => simpa [Capability.coerced, hc] using demand f rfl
  | some k =>
    simp only [Option.isSome_some, if_true, List.singleton_append, runActions, runAction, hx, bind_assoc, pure_bind]
    congr 1
    funext v
    have := demand (f.write x v) (by simp)
    simpa [runActions, runAction] using this

/-! ## One step -/

/-- Every step finds its argument as the mode of the plan asks. -/
def FetchesByMode (p : Plan σ) : Prop := ∀ s ∈ p.steps, s.fetch = match p.sourceMode with
  | .named => .key s.name
  | .positional => .index s.position

theorem runStmt_fetch {p : Plan σ} (hp : p.FetchesByMode) {args : Value} (ha : p.ShapeFits args) {s : Step σ}
    (hs : s ∈ p.steps) (i : Nat) (f : Frame) :
    p.runStmt args f (fetchStmt i s.fetch) = pure (f.write (.step i) (fetch s args)) := by
  have hf := hp s hs
  unfold ShapeFits at ha
  cases hm : p.sourceMode <;> simp only [hm] at hf ha <;> cases args <;> simp_all [Value.isObject, Value.isList,
    fetchStmt, runStmt, fetch, indexed]

section program

variable {p : Plan σ}

/-! ## The program, step by step -/

theorem run_checks {i : Nat} {s : Step σ} (hs : p.steps[i]? = some s) {fr : Fragment} (hfr : s.type.inline? = some fr)
    (f : Frame) (v : Value) : p.runActions (f.write (.step i) v) (checks s.type fr (.step i) (.step i)) =
      (do let w ← p.judgeStep conditioned s v; pure (f.write (.step i) w)) := by
  rw [runActions_checks (x := .step i) (c := s.type) (b := .step i) (by simp [bound, hs]) fr _ (p.stepFault s)
    (fun g w _ => complainMismatch_eq hs w)]
  simp only [judgeStep, bind_assoc, Frame.read_write, conditioned_eq hfr, Frame.write_write]

/-- A value that is there is coerced and tested. -/
theorem run_settleStmts_given {i : Nat} {s : Step σ} (fr : Fragment) (args : Value) {f : Frame}
    (hv : (f.step i).isUndefined = false) :
    p.runStmts args f (settleStmts i s fr) = p.runActions f (checks s.type fr (.step i) (.step i)) := by
  unfold settleStmts
  cases s.default with
  | value d => simp [runStmts_single, runStmt, hv]
  | factory j make => simp [runStmts_single, runStmt, hv]
  | none => cases s.isRequired <;> simp [runStmts, runStmt, runAction, runStmts_acts, hv]

/-- The statements of a step settle it and write its variable. -/
theorem run_stepStmts (hp : p.FetchesByMode) {args : Value} (ha : p.ShapeFits args) {i : Nat} {s : Step σ}
    (hs : p.steps[i]? = some s) {ss : List Stmt} (h : stepStmts i s = .ok ss) (f : Frame) :
    p.runStmts args f ss = (do let v ← p.settleStep conditioned args s; pure (f.write (.step i) v)) := by
  obtain ⟨fr, hfr, rfl⟩ := stepStmts_ok h
  have checks := run_checks hs hfr f
  rw [runStmts, runStmt_fetch hp ha (List.mem_of_getElem? hs), pure_bind]
  unfold settleStep
  generalize fetch s args = v
  have hstep : (f.write (.step i) v).step i = v := by simp
  by_cases hv : v.isUndefined = true
  · rw [if_pos hv]
    unfold settleStmts
    cases hd : s.default with
    | value d =>
      have hb : p.boundDefault i = .value d := by simp [boundDefault, hs, hd]
      simp only [runStmts_single, runStmt, hstep, hv, if_true, runActions, runAction, hb, pure_bind, Frame.write_write]
    | factory j make =>
      have hb : p.boundDefault i = .factory j make := by simp [boundDefault, hs, hd]
      simp only [runStmts_single, runStmt, hstep, hv, if_true, runActions, runAction, hb, bind_assoc, pure_bind,
        Frame.write_write, checks]
    | none =>
      by_cases hr : s.isRequired = true
      · simp only [hr, if_true, runStmts, runStmt, runAction, hstep, hv, complainMissing_eq hs]
        rfl
      · simp only [hr, Bool.false_eq_true, if_false, runStmts_single, runStmt, hstep, hv, if_true, pure_bind,
          ← Value.eq_undefined hv]
  · rw [if_neg hv, run_settleStmts_given fr args (by simpa [hstep] using hv)]
    exact checks v

/-- The statements of the steps from the `i`-th on settle these and write their variables. -/
theorem run_stepsStmts (hp : p.FetchesByMode) {args : Value} (ha : p.ShapeFits args) (steps : List (Step σ)) (i : Nat)
    (hi : ∀ k, p.steps[i + k]? = steps[k]?) {ss : List Stmt} (h : stepsStmts i steps = .ok ss) (f : Frame) :
    p.runStmts args f ss = (do let vs ← p.settleSteps conditioned args steps; pure (f.fill i vs)) := by
  induction steps generalizing i ss f with
  | nil =>
    cases h
    rfl
  | cons s steps ih =>
    obtain ⟨here, rest, hhere, hrest, rfl⟩ := stepsStmts_cons_ok h
    have hs : p.steps[i]? = some s := by simpa using hi 0
    have hnext : ∀ k, p.steps[i + 1 + k]? = steps[k]? := fun k => by
      have := hi (k + 1)
      rwa [List.getElem?_cons_succ, ← Nat.add_assoc, Nat.add_right_comm] at this
    rw [runStmts_append, run_stepStmts hp ha hs hhere]
    simp only [settleSteps, bind_assoc, pure_bind, Frame.fill, ih (i + 1) hnext hrest]

/-! ## The container -/

/-- Writing the variables into a record, with the test or without, trusts the steps without. -/
theorem runStmts_putStmts (args : Value) {steps : List (Step σ)} {vs : List Value} (hl : steps.length = vs.length)
    (i : Nat) (f : Frame) (es : Entries Value) (hf : ∀ k (hk : k < vs.length), f.step (i + k) = vs[k])
    (ho : f.out = .record es) :
    p.runStmts args f (putStmts i steps)
      = pure { f with out := .record (Entries.putAll (trusting alwaysGiven steps vs) es) } := by
  induction steps generalizing vs i f es with
  | nil =>
    cases f
    subst ho
    rfl
  | cons s steps ih =>
    obtain _ | ⟨v, vs⟩ := vs
    · cases hl
    have h0 : f.step i = v := hf 0 (Nat.succ_pos _)
    have hrest : ∀ k (hk : k < vs.length), f.step (i + 1 + k) = vs[k] := fun k hk => by
      have := hf (k + 1) (by simpa using hk)
      rwa [List.getElem_cons_succ, ← Nat.add_assoc, Nat.add_right_comm] at this
    have hput : p.runStmt args f (if alwaysGiven s then .put i s.name else .putGiven i s.name) = pure { f with
        out := .record (if v.isUndefined && !alwaysGiven s then es else Entries.put s.name v es) } := by
      cases hg : alwaysGiven s with
      | true => simp [runStmt, putStep, ho, h0]
      | false =>
        cases hu : v.isUndefined with
        | false => simp [runStmt, putStep, ho, h0, hu]
        | true => simp [runStmt, h0, hu, ← ho]
    have htrusting : Entries.putAll (trusting alwaysGiven (s :: steps) (v :: vs)) es
        = Entries.putAll (trusting alwaysGiven steps vs)
            (if v.isUndefined && !alwaysGiven s then es else Entries.put s.name v es) := by
      rw [trusting_cons]
      cases v.isUndefined && !alwaysGiven s <;> rfl
    rw [putStmts, runStmts, hput, pure_bind, htrusting]
    exact ih (Nat.succ.inj hl) (i + 1) _ _ hrest rfl

theorem run_outStmts (args : Value) {vs : List Value} (hl : p.steps.length = vs.length) (f : Frame) :
    p.runStmts args (f.fill 0 vs) p.outStmts = pure { f.fill 0 vs with out := p.outputOf alwaysGiven vs } := by
  have hf : ∀ k (hk : k < vs.length), (f.fill 0 vs).step (0 + k) = vs[k] := fun k hk => f.step_fill vs 0 k hk
  unfold outStmts outputOf
  cases p.outputMode with
  | mapped =>
    rw [runStmts, runStmt, pure_bind]
    exact runStmts_putStmts args hl 0 _ [] hf rfl
  | orderedList =>
    have : (List.range p.steps.length).map (f.fill 0 vs).step = vs := by
      refine List.ext_getElem (by simp [hl]) fun k hk _ => ?_
      simpa using hf k (by simpa [hl] using hk)
    simp [runStmts_single, runStmt, this]

/-! ## Extra arguments -/

/-- The checks of an extra argument judge it. -/
theorem run_extraChecks {b : Blame} (hb : b = .key ∨ b = .position) {cs : List Action} (h : p.extraChecks b = .ok cs)
    (f : Frame) :
    p.runActions f cs = (do let v ← p.judgeExtra conditioned f.label f.extra; pure { f with extra := v }) := by
  unfold judgeExtra
  rcases extraChecks_ok h with ⟨ht, rfl⟩ | ⟨t, fr, ht, hfr, rfl⟩
  · rw [ht]
    rfl
  · have hcomplain : ∀ (g : Frame) v, g.label = f.label →
        (p.complain g v b : Call σ Frame) = blame t v (p.extraFault f.label v) := by
      intro g v hg
      rcases hb with rfl | rfl <;> simp only [complain, hg] <;> exact complainExtraMismatch_eq ht _ _
    rw [ht, runActions_checks (x := .extra) (c := t) (by simpa [bound] using ht) fr f b (p.extraFault f.label) hcomplain]
    simp only [bind_assoc, conditioned_eq hfr]
    rfl

/-- A frame with the kept entries in their place. -/
def taking (f : Frame) (target : Target) (kept : Entries Value) : Frame :=
  match target with
  | .out => { f with out := .record kept }
  | .rest => { f with rest := kept }

theorem undeclared_cons (e : String × Value) (es : Entries Value) : p.undeclared (e :: es) =
    if p.declared.contains e.1 then p.undeclared es else e :: p.undeclared es := by
  unfold undeclared
  rw [List.filter_cons]
  cases p.declared.contains e.1 <;> rfl

theorem run_keepEntries {cs : List Action} (h : p.extraChecks .key = .ok cs) (target : Target) (es : Entries Value)
    (f : Frame) (kept : Entries Value) :
    (do let g ← p.keepEntries p.declared cs target (taking f target kept) es; pure (g.out, g.rest)) =
      (do
        let more ← p.judgeExtras conditioned (p.undeclared es)
        let g := taking f target (Entries.putAll more kept)
        pure (g.out, g.rest)) := by
  induction es generalizing f kept with
  | nil => rfl
  | cons e es ih =>
    obtain ⟨k, v⟩ := e
    rw [keepEntries, undeclared_cons]
    by_cases hk : p.declared.contains k = true
    · rw [if_pos hk, if_pos hk]
      exact ih f kept
    rw [if_neg hk, if_neg hk, judgeExtras]
    simp only [run_extraChecks (.inl rfl) h, bind_assoc, pure_bind]
    refine bind_congr fun w => ?_
    cases target
    · exact ih { f with extra := w, label := k } (Entries.put k w kept)
    · exact ih { f with extra := w, label := k } (Entries.put k w kept)

theorem run_keepItems {cs : List Action} (h : p.extraChecks .position = .ok cs) (items : List (Option Value)) (i : Nat)
    (f : Frame) (vs : List Value) :
    (do let g ← p.keepItems cs { f with out := .list vs } i items; pure g.out) =
      (do let more ← p.judgeExtras conditioned (labelled i items); pure (.list (vs ++ more.map (·.2)))) := by
  induction items generalizing i f vs with
  | nil =>
    simp only [keepItems, labelled, List.zipIdx_nil, List.map_nil, judgeExtras, pure_bind, List.append_nil]
  | cons o items ih =>
    have hlabelled : labelled i (o :: items) =
      ("[" ++ Text.natText i ++ "]", o.getD .undefined) :: labelled (i + 1) items := rfl
    rw [keepItems, hlabelled, judgeExtras]
    simp only [run_extraChecks (.inr rfl) h, bind_assoc, pure_bind]
    refine bind_congr fun w => ?_
    have hrest := ih (i + 1) { f with extra := w, label := "[" ++ Text.natText i ++ "]" } (vs ++ [w])
    simp only [List.append_assoc, List.singleton_append] at hrest
    exact hrest

/-- Items are kept behind the values of a list. -/
theorem run_keptItems {cs : List Action} (h : p.extraChecks .position = .ok cs) {args : Value} (ha : args.isList = true)
    (f : Frame) (vs : List Value) :
    (do let g ← p.runStmts args { f with out := .list vs } [.keepItems p.steps.length cs]; pure g.out.value) =
      (do
        let kept ← p.judgeExtras conditioned (labelled p.steps.length (args.items.drop p.steps.length))
        pure (.ofItems (vs ++ kept.map (·.2)))) := by
  cases args with
  | list items =>
    have hkeep := run_keepItems h (items.drop p.steps.length) p.steps.length f vs
    rw [runStmts_single]
    refine (bind_shown hkeep fun out => pure out.value).trans ?_
    simp only [bind_assoc, pure_bind]
    rfl
  | _ => cases ha

/-- Entries are kept in a record behind its own. -/
theorem run_keptEntries {cs : List Action} (h : p.extraChecks .key = .ok cs) (args : Value) (f : Frame)
    (es : Entries Value) :
    (do let g ← p.runStmts args { f with out := .record es } [.keepEntries p.declared cs .out]; pure g.out.value) =
      (do
        let kept ← p.judgeExtras conditioned (p.undeclared args.entries)
        pure (.record (Entries.putAll kept es))) := by
  have hkeep := run_keepEntries h .out args.entries f es
  rw [runStmts_single]
  refine (bind_shown hkeep fun shown => pure shown.1.value).trans ?_
  simp only [bind_assoc, pure_bind]
  rfl

/-- Appending looks at the output of a frame only. -/
theorem push_congr {f g : Frame} (h : f.out = g.out) (v : Value) :
    (do let f ← push f v; pure f.out.value : Call σ Value) = (do let g ← push g v; pure g.out.value) := by
  unfold push
  rw [h]
  cases g.out <;> rfl

/-- Entries are kept in a record of their own behind the values of a list. -/
theorem run_keptRest {cs : List Action} (h : p.extraChecks .key = .ok cs) (args : Value) (f : Frame) (vs : List Value) :
    (do
      let g ← p.runStmts args { f with out := .list vs } [.newRest, .keepEntries p.declared cs .rest, .pushRest]
      pure g.out.value) =
      (do
        let kept ← p.judgeExtras conditioned (p.undeclared args.entries)
        pure (.ofItems (vs ++ [.record (Entries.putAll kept [])]))) := by
  have hkeep := run_keepEntries h .rest args.entries { f with out := .list vs } []
  have hpush : ∀ a : Frame, (do let g ← p.runStmt args a .pushRest; pure g.out.value) =
      (do let g ← push { f with out := a.out } (.record a.rest); pure g.out.value) := by
    intro a
    exact push_congr (f := a) (g := { f with out := a.out }) rfl _
  simp only [runStmts, bind_assoc, bind_pure, hpush]
  refine (bind_shown hkeep fun shown => do
    let g ← push { f with out := shown.1 } (.record shown.2)
    pure g.out.value).trans ?_
  simp only [bind_assoc, pure_bind, taking, push]
  rfl

/-- The statements after the container keep the extra arguments. -/
theorem run_extraStmts (hp : p.KeepsOrder) {args : Value} (ha : p.ShapeFits args) {ss : List Stmt}
    (h : p.extraStmts = .ok ss) (f : Frame) (vs : List Value) :
    (do let g ← p.runStmts args { f with out := p.outputOf alwaysGiven vs } ss; pure g.out.value) =
      (do let kept ← p.judgeKept conditioned args; pure (p.extended (p.outputOf alwaysGiven vs) kept)) := by
  unfold judgeKept extraArguments extended outputOf
  rcases extraStmts_ok h with ⟨hk, rfl⟩ | ⟨hk, ⟨hm, cs, hcs, rfl⟩ | ⟨hm, cs, hcs, ⟨ho, rfl⟩ | ⟨ho, rfl⟩⟩⟩
  · cases p.sourceMode <;> cases p.outputMode <;> simp [hk, runStmts, Output.value, Entries.putAll]
  · simp only [hk, hm, hp hm hk, if_true]
    exact run_keptItems hcs ((shapeFits_positional hm args).mp ha) f vs
  · simp only [hk, hm, ho, if_true]
    exact run_keptEntries hcs args f _
  · simp only [hk, hm, ho, if_true]
    exact run_keptRest hcs args f vs

/-! ## The whole routine -/

theorem run_shapeStmts (args : Value) (f : Frame) : p.runStmts args f p.shapeStmts = (do p.receive args; pure f) := by
  unfold shapeStmts receive
  cases p.sourceMode with
  | named =>
    simp only [runStmts, runStmt]
    by_cases ha : args.isObject = true
    · simp only [ha, if_true, pure_bind]
      by_cases hx : p.extras.isReject = true
      · simp only [hx, if_true, runStmts_single, runStmt]
        cases List.find? (fun e => !p.declared.contains e.1) args.entries <;> rfl
      · simp only [hx]
        rfl
    · simp only [ha]
      rfl
  | positional =>
    simp only [runStmts, runStmt]
    cases args with
    | list items =>
      simp only [Value.isList, if_true, pure_bind]
      by_cases hx : p.extras.isReject = true
      · simp only [hx, if_true, runStmts_single, runStmt, Bool.true_and, decide_eq_true_eq]
        by_cases hl : p.steps.length < items.length
        · rw [if_pos hl, if_pos hl]
          rfl
        · rw [if_neg hl, if_neg hl]
          rfl
      · simp only [hx]
        rfl
    | _ => rfl

/-- The program of a plan is the direct routine under inline conditions, which trusts the steps
of which the program does not test whether they have a value. -/
theorem run_eq_direct (hf : p.FetchesByMode) (hk : p.KeepsOrder) {g : Program} (hg : p.program = .ok g) (args : Value) :
    p.run g args = p.direct conditioned alwaysGiven args := by
  obtain ⟨steps, extras, hsteps, hextras, rfl⟩ := program_ok hg
  simp only [run, direct, runStmts_append, run_shapeStmts, bind_assoc, pure_bind]
  refine bind_congr_of_returns fun _ hreceive => ?_
  have ha := shapeFits_of_returns hreceive
  rw [run_stepsStmts hf ha p.steps 0 (by simp) hsteps]
  simp only [bind_assoc, pure_bind]
  refine bind_congr_of_returns fun vs hvs => ?_
  rw [run_outStmts args (length_settleSteps hvs), pure_bind]
  exact run_extraStmts hk ha hextras _ vs

end program

end Plan

end ArgGuard
