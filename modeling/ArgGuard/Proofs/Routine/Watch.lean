/-
  ArgGuard.Proofs.Routine.Watch — what a routine asks of the code around it.

  A watched plan does what the plan does and notes each check, each coercion and each run of
  a factory, with what it was given, beside the state (`watch`). Watching changes nothing of
  the program (`program_watch`).

  A specialized routine is quiet: a call of it that returns has noted no check, and one that
  fails at most one, the check that is asked for its reason (`quiet_run`). Each statement is
  quiet, and quiet calls in sequence are.
-/

import ArgGuard.Proofs.Routine.Translation

namespace ArgGuard

open Call

variable {σ α β : Type}

/-- A use of code from around: of a capability, by its identity, or of a factory, by its source. -/
inductive Event where
  | check (type : Nat) (v : Value)
  | coerce (type : Nat) (v : Value)
  | make (source : Nat)
  deriving Repr

def Event.isCheck : Event → Bool
  | .check .. => true
  | _ => false

/-- A call that notes what it is. -/
def noted (e : Event) (c : Call σ α) : Call (σ × List Event) α := fun s =>
  ((start c s.1).1, (start c s.1).2, s.2 ++ [e])

@[simp] theorem start_noted (e : Event) (c : Call σ α) (s : σ × List Event) :
    start (noted e c) s = ((start c s.1).1, (start c s.1).2, s.2 ++ [e]) := rfl

def watch : Translation σ (σ × List Event) where
  capability c := {
    id := c.id
    name := c.name
    check := fun v => noted (.check c.id v) (c.check v)
    inline? := c.inline?
    coerce? := c.coerce?.map fun f v => noted (.coerce c.id v) (f v) }
  factory i make := noted (.make i) make

theorem coerced_watch (c : Capability σ) (v : Value) :
    (watch.capability c).coerced v = match c.coerce? with
      | some f => noted (.coerce c.id v) (f v)
      | none => pure v := by
  rcases c with ⟨_, _, _, _, _ | f⟩ <;> rfl

/-! ## Quiet calls -/

def checksIn (es : List Event) : Nat := es.countP Event.isCheck

/-- Notes no check when it returns and at most one when it fails. -/
def Quiet (c : Call (σ × List Event) α) : Prop := ∀ s,
  match start c s with
  | (.ok _, t) => checksIn t.2 = checksIn s.2
  | (.error _, t) => checksIn t.2 ≤ checksIn s.2 + 1

namespace Quiet

theorem pure (a : α) : Quiet (Pure.pure a : Call (σ × List Event) α) := fun _ => rfl

theorem fail (t : Thrown) : Quiet (Call.fail t : Call (σ × List Event) α) := fun _ => Nat.le_succ _

theorem ofExcept (r : Except Thrown α) : Quiet (Call.ofExcept r : Call (σ × List Event) α) := by
  cases r with
  | error t => exact fail t
  | ok a => exact pure a

theorem bind {c : Call (σ × List Event) α} {f : α → Call (σ × List Event) β} (hc : Quiet c) (hf : ∀ a, Quiet (f a)) :
    Quiet (c >>= f) := by
  intro s
  have h := hc s
  rcases hs : start c s with ⟨t | a, s₁⟩ <;> rw [hs] at h
  · rw [start_bind_error hs]
    exact h
  · rw [start_bind_ok hs, ← h]
    exact hf a s₁

theorem noted {e : Event} (he : e.isCheck = false) (c : Call σ α) : Quiet (noted e c) := by
  intro s
  have : checksIn (s.2 ++ [e]) = checksIn s.2 := by simp [checksIn, he]
  rw [start_noted]
  rcases (start c s.1).1 with t | a
  · exact this ▸ Nat.le_succ _
  · exact this

theorem coerced (c : Capability σ) (v : Value) : Quiet ((watch.capability c).coerced v) := by
  rw [coerced_watch]
  cases c.coerce? with
  | none => exact pure v
  | some f => exact noted rfl (f v)

/-- Asking for a reason notes one check, and the complaint fails. -/
theorem complaint (c : Capability σ) (v : Value) (f : Reason → CallFault) :
    Quiet (do let reason ← Plan.reasonFor (watch.capability c) v; Plan.fail (f reason) :
      Call (σ × List Event) α) := by
  intro s
  have hone : checksIn (s.2 ++ [.check c.id v]) ≤ checksIn s.2 + 1 := by simp [checksIn, Event.isCheck]
  have hcheck : start ((watch.capability c).check v) s
      = ((start (c.check v) s.1).1, (start (c.check v) s.1).2, s.2 ++ [.check c.id v]) := rfl
  simp only [Plan.reasonFor, bind_assoc]
  rcases hr : (start (c.check v) s.1).1 with t | _ | reason <;> rw [hr] at hcheck
  · rw [start_bind_error hcheck]
    exact hone
  · rw [start_bind_ok hcheck]
    exact hone
  · rw [start_bind_ok hcheck]
    exact hone

end Quiet

/-! ## Quiet programs -/

namespace Plan

section map

variable {τ : Type} (T : Translation σ τ) (p : Plan σ)

@[simp] theorem bound_map (x : Var) : (p.map T).bound x = (p.bound x).map T.capability := by
  cases x with
  | step i => simp [bound, steps_map, Function.comp_def, Step.map]
  | extra => simp [bound]

@[simp] theorem boundDefault_map (i : Nat) : (p.map T).boundDefault i = (p.boundDefault i).map T := by
  unfold boundDefault
  rw [steps_map]
  cases p.steps[i]? <;> rfl

end map

variable (p : Plan σ)

theorem quiet_complainMissing (i : Int) : Quiet ((p.map watch).complainMissing i : Call _ α) := by
  unfold complainMissing
  refine .bind ?_ fun s => .fail _
  unfold stepAt
  split
  · exact .pure _
  · exact .fail _

theorem quiet_complainMismatch (i : Int) (v : Value) : Quiet ((p.map watch).complainMismatch i v : Call _ α) := by
  unfold complainMismatch stepAt
  split
  · rename_i s hs
    -- whatever step is named, it is one of the watched plan's
    have : s ∈ (p.map watch).steps := by
      split at hs
      · exact List.mem_of_getElem? hs
      · cases hs
    obtain ⟨t, _, rfl⟩ := List.mem_map.mp this
    exact Quiet.complaint t.type v _
  · exact .fail _

theorem quiet_complainExtraMismatch (label : String) (v : Value) :
    Quiet ((p.map watch).complainExtraMismatch label v : Call _ α) := by
  unfold complainExtraMismatch
  rw [type?_map]
  cases p.extras.type? with
  | none => exact .fail _
  | some t => exact Quiet.complaint t v _

theorem quiet_complain (f : Frame) (v : Value) (b : Blame) : Quiet ((p.map watch).complain f v b : Call _ α) := by
  cases b with
  | step i => exact quiet_complainMismatch p i v
  | key => exact quiet_complainExtraMismatch p _ v
  | position => exact quiet_complainExtraMismatch p _ v

theorem quiet_runAction (f : Frame) (a : Action) : Quiet ((p.map watch).runAction f a) := by
  cases a with
  | coerce x =>
    simp only [runAction, bound_map]
    cases p.bound x with
    | none => exact .fail _
    | some c => exact (Quiet.coerced c _).bind fun _ => .pure _
  | demand x fr b =>
    refine (Quiet.ofExcept _).bind fun passed => ?_
    split
    · exact .pure _
    · exact quiet_complain p f _ b
  | takeDefault i =>
    simp only [runAction]
    split
    · exact .pure _
    · exact .fail _
  | makeDefault i =>
    simp only [runAction, boundDefault_map]
    cases p.boundDefault i with
    | factory j m => exact (Quiet.noted rfl m).bind fun _ => .pure _
    | _ => exact .fail _
  | demandGiven i =>
    simp only [runAction]
    split
    · exact quiet_complainMissing p i
    · exact .pure _

theorem quiet_runActions (f : Frame) (as : List Action) : Quiet ((p.map watch).runActions f as) := by
  induction as generalizing f with
  | nil => exact .pure _
  | cons a as ih => exact (quiet_runAction p f a).bind ih

theorem quiet_defineExtra (f : Frame) (target : Target) (k : String) (v : Value) :
    Quiet (defineExtra f target k v : Call (σ × List Event) Frame) := by
  unfold defineExtra
  split
  · exact .pure _
  · exact .pure _
  · exact .fail _

theorem quiet_push (f : Frame) (v : Value) : Quiet (push f v : Call (σ × List Event) Frame) := by
  unfold push
  split
  · exact .pure _
  · exact .fail _

theorem quiet_keepEntries (names : List String) (cs : List Action) (target : Target) (f : Frame) (es : Entries Value) :
    Quiet ((p.map watch).keepEntries names cs target f es) := by
  induction es generalizing f with
  | nil => exact .pure _
  | cons e es ih =>
    simp only [keepEntries]
    split
    · exact ih f
    · exact (quiet_runActions p _ cs).bind fun _ => (quiet_defineExtra _ target _ _).bind ih

theorem quiet_keepItems (cs : List Action) (f : Frame) (i : Nat) (items : List (Option Value)) :
    Quiet ((p.map watch).keepItems cs f i items) := by
  induction items generalizing f i with
  | nil => exact .pure _
  | cons o items ih => exact (quiet_runActions p _ cs).bind fun _ => (quiet_push _ _).bind fun f => ih f (i + 1)

/-- Every statement is quiet. -/
theorem quiet_runStmt (args : Value) (f : Frame) (s : Stmt) : Quiet ((p.map watch).runStmt args f s) := by
  cases s with
  | act a => exact quiet_runAction p f a
  | demandShape mode =>
    cases mode <;> simp only [runStmt] <;> split
    all_goals first | exact .pure _ | exact .fail _
  | refuseUnknown names =>
    simp only [runStmt]
    split
    · exact .fail _
    · exact .pure _
  | refuseExtra n =>
    simp only [runStmt]
    split
    · split
      · exact .fail _
      · exact .pure _
    · exact .pure _
  | whenAbsent i absent given =>
    simp only [runStmt]
    split
    · exact quiet_runActions p f absent
    · exact quiet_runActions p f given
  | whenGiven i given =>
    simp only [runStmt]
    split
    · exact .pure _
    · exact quiet_runActions p f given
  | keepEntries names cs target => exact quiet_keepEntries p names cs target f args.entries
  | keepItems n cs =>
    simp only [runStmt]
    split
    · exact quiet_keepItems p cs f n _
    · exact .pure _
  | pushRest => exact quiet_push f _
  | _ => exact .pure _

theorem quiet_runStmts (args : Value) (f : Frame) (ss : List Stmt) : Quiet ((p.map watch).runStmts args f ss) := by
  induction ss generalizing f with
  | nil => exact .pure _
  | cons s ss ih => exact (quiet_runStmt p args f s).bind ih

theorem quiet_run (g : Program) (args : Value) : Quiet ((p.map watch).run g args) :=
  (quiet_runStmts p args .empty g.body).bind fun _ => .pure _

/-! ## The program of a watched plan -/

@[simp] theorem inlineOf_watch (c : Capability σ) : inlineOf (watch.capability c) = inlineOf c := rfl

@[simp] theorem coerce?_watch (c : Capability σ) : (watch.capability c).coerce?.isSome = c.coerce?.isSome := by
  simp [watch]

@[simp] theorem checks_watch (c : Capability σ) (f : Fragment) (x : Var) (b : Blame) :
    checks (watch.capability c) f x b = checks c f x b := by simp [checks]

theorem stepStmts_watch (i : Nat) (s : Step σ) : stepStmts i (s.map watch) = stepStmts i s := by
  obtain ⟨name, position, fetch, required, default, type⟩ := s
  cases default with
  | none =>
    simp only [stepStmts, Step.map, Default.map, inlineOf_watch, checks_watch]
    rfl
  | _ => simp only [stepStmts, Step.map, Default.map, inlineOf_watch, checks_watch]

theorem stepsStmts_watch (i : Nat) (ss : List (Step σ)) : stepsStmts i (ss.map (Step.map watch)) = stepsStmts i ss := by
  induction ss generalizing i with
  | nil => rfl
  | cons s ss ih => simp only [List.map_cons, stepsStmts, stepStmts_watch, ih]

theorem stepBindings_watch (i : Nat) (ss : List (Step σ)) :
    stepBindings i (ss.map (Step.map watch)) = stepBindings i ss := by
  induction ss generalizing i with
  | nil => rfl
  | cons s ss ih =>
    obtain ⟨name, position, fetch, required, default, type⟩ := s
    cases default <;> simp [stepBindings, Step.map, Default.map, Default.isGiven, ih]

theorem alwaysGiven_watch (s : Step σ) : alwaysGiven (s.map watch) = alwaysGiven s := by
  obtain ⟨name, position, fetch, required, default, type⟩ := s
  cases default <;> simp [Step.map, Default.map, alwaysGiven, Step.isRequired, watch]

theorem putStmts_watch (i : Nat) (ss : List (Step σ)) : putStmts i (ss.map (Step.map watch)) = putStmts i ss := by
  induction ss generalizing i with
  | nil => rfl
  | cons s ss ih =>
    simp only [List.map_cons, putStmts, alwaysGiven_watch, ih]
    rfl

theorem extraChecks_watch (b : Blame) : (p.map watch).extraChecks b = p.extraChecks b := by
  unfold extraChecks
  rw [type?_map]
  cases p.extras.type? <;> simp

/-- Watching leaves the program as it is. -/
theorem program_watch : (p.map watch).program = p.program := by
  have hextra : (p.map watch).extraStmts = p.extraStmts := by
    unfold extraStmts
    simp only [isKeep_map, extraChecks_watch, declared_map]
    simp [map]
  have hbindings : (p.map watch).bindings = p.bindings := by
    unfold bindings
    rw [type?_map, show (p.map watch).steps = p.steps.map (Step.map watch) from rfl, stepBindings_watch]
    cases p.extras.type? <;> simp
  have hshape : (p.map watch).shapeStmts = p.shapeStmts := by
    have hlength : (p.map watch).steps.length = p.steps.length := by simp [map]
    have hmode : (p.map watch).sourceMode = p.sourceMode := rfl
    unfold shapeStmts
    rw [hmode, isReject_map, declared_map, hlength]
  have hout : (p.map watch).outStmts = p.outStmts := by
    unfold outStmts
    rw [show (p.map watch).steps = p.steps.map (Step.map watch) from rfl, putStmts_watch]
    simp [map]
  unfold program
  rw [hextra, hbindings, hshape, hout, show (p.map watch).steps = p.steps.map (Step.map watch) from rfl,
    stepsStmts_watch]
  rfl

end Plan

end ArgGuard
