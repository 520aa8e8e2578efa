/-
  ArgGuard.Proofs.Routine.Phases — the generic loop in three phases.

  A call of the generic routine receives the arguments, settles every step in order and
  finishes the result: it builds the container and keeps the extra arguments (`generic_eq`).
  Each phase has its own small laws. What a step may settle on is read off `settle_cases`,
  and settling all steps settles each of them (`settled_of_returns`). Finishing screens the
  extra arguments that are kept in order and builds one container (`finish_eq`). A loop that
  trusts some steps to have a value is the generic one where they do (`loop_eq_generic`).
-/

import ArgGuard.Proofs.Entries
import ArgGuard.Proofs.Routine.Translation
import Mathlib.Data.List.Forall2

namespace ArgGuard

open Call

variable {σ : Type}

theorem Value.eq_undefined {v : Value} (h : v.isUndefined = true) : v = .undefined := by
  cases v <;> first | rfl | cases h

/-- The items of a list, holes included. -/
def Value.items : Value → List (Option Value)
  | .list items => items
  | _ => []

namespace Plan

/-! ## The phases -/

/-- Whether arguments have the shape that the mode asks for. -/
def ShapeFits (p : Plan σ) (args : Value) : Prop :=
  match p.sourceMode with
  | .named => args.isObject = true
  | .positional => args.isList = true

theorem shapeFits_named {p : Plan σ} (h : p.sourceMode = .named) (args : Value) :
    p.ShapeFits args ↔ args.isObject = true := by rw [ShapeFits, h]

theorem shapeFits_positional {p : Plan σ} (h : p.sourceMode = .positional) (args : Value) :
    p.ShapeFits args ↔ args.isList = true := by rw [ShapeFits, h]

/-- Refuses arguments of the wrong shape and, where a plan rejects them, extra arguments. -/
def receive (p : Plan σ) (args : Value) : Call σ Unit :=
  match p.sourceMode with
  | .named =>
    if args.isObject then
      if p.extras.isReject then
        match List.find? (fun e => !p.declared.contains e.1) args.entries with
        | some e => p.complainUnknown e.1
        | none => pure ()
      else pure ()
    else p.complainShape args
  | .positional =>
    match args with
    | .list items =>
      if p.extras.isReject && p.steps.length < items.length then p.complainExtra p.steps.length else pure ()
    | args => p.complainShape args

/-- Builds the container of the settled values and of the extra arguments that are kept. -/
def finish (p : Plan σ) (args : Value) (values : List Value) : Call σ Value :=
  match p.sourceMode, p.outputMode with
  | .named, .mapped =>
    if p.extras.isKeep then do return .record (← p.collectNamed args.entries (toMapped p.steps values []))
    else pure (.record (toMapped p.steps values []))
  | .named, .orderedList =>
    if p.extras.isKeep then do return .ofItems (values ++ [.record (← p.collectNamed args.entries [])])
    else pure (.ofItems values)
  | .positional, .mapped => pure (.record (toMapped p.steps values []))
  | .positional, .orderedList =>
    if p.extras.isKeep then do
      return .ofItems (values ++ (← p.collectItems p.steps.length (args.items.drop p.steps.length)))
    else pure (.ofItems values)

theorem generic_eq (p : Plan σ) (args : Value) :
    p.generic args = (do p.receive args; let values ← p.settleFrom args 0 p.steps; p.finish args values) := by
  unfold generic receive finish
  cases p.sourceMode with
  | named =>
    simp only [genericNamed]
    cases ha : args.isObject with
    | false => rfl
    | true =>
      cases p.extras.isReject <;> cases p.outputMode <;> cases p.extras.isKeep
        <;> simp only [Bool.not_true, Bool.false_eq_true, if_false, if_true, pure_bind, bind_pure_comp]
        <;> first
          | rfl
          | cases List.find? (fun e => !p.declared.contains e.1) args.entries <;> rfl
  | positional =>
    cases args with
    | list items =>
      simp only [genericPositional]
      by_cases hl : p.steps.length < items.length <;> cases p.extras.isReject <;> cases p.outputMode
        <;> cases p.extras.isKeep <;> simp [Value.items, hl]
    | _ => rfl

theorem shapeFits_of_returns {p : Plan σ} {args : Value} {u : Unit} (h : Returns (p.receive args) u) :
    p.ShapeFits args := by
  unfold receive at h
  unfold ShapeFits
  cases hm : p.sourceMode with
  | named =>
    simp only [hm] at h ⊢
    by_cases ha : args.isObject = true
    · exact ha
    · rw [if_neg ha] at h
      exact absurd h not_returns_fail
  | positional =>
    simp only [hm] at h ⊢
    cases args with
    | list items => rfl
    | _ => exact absurd h not_returns_fail

/-! ## Rejections never return -/

theorem not_returns_complainMissing {α : Type} {p : Plan σ} {i : Int} {a : α} :
    ¬ Returns (p.complainMissing i : Call σ α) a := by
  intro h
  obtain ⟨_, _, h⟩ := returns_bind h
  exact not_returns_fail h

theorem not_returns_complainMismatch {α : Type} {p : Plan σ} {i : Int} {v : Value} {a : α} :
    ¬ Returns (p.complainMismatch i v : Call σ α) a := by
  intro h
  obtain ⟨_, _, h⟩ := returns_bind h
  obtain ⟨_, _, h⟩ := returns_bind h
  exact not_returns_fail h

theorem not_returns_complainExtraMismatch {α : Type} {p : Plan σ} {k : String} {v : Value} {a : α} :
    ¬ Returns (p.complainExtraMismatch k v : Call σ α) a := by
  intro h
  unfold complainExtraMismatch at h
  split at h
  · obtain ⟨_, _, h⟩ := returns_bind h
    exact not_returns_fail h
  · exact not_returns_fail h

/-- What screening returns is a coerced value that the check passed. -/
theorem screen_returns {c : Capability σ} {v w : Value} {k : Value → Call σ Value}
    (hk : ∀ u, ¬ Returns (k u) w) (h : Returns (screen c v k) w) :
    Returns (c.coerced v) w ∧ Returns (c.check w) .passed := by
  obtain ⟨u, hu, h⟩ := returns_bind h
  obtain ⟨r, hr, h⟩ := returns_bind h
  cases r with
  | rejected reason => exact absurd h (hk u)
  | passed =>
    cases returns_pure h
    exact ⟨hu, hr⟩

/-! ## Settling -/

/-- Where the value of a step comes from: its static default, nothing at all, or a value
that was coerced and passed. -/
theorem settle_cases {p : Plan σ} {i : Nat} {s : Step σ} {args v : Value} (h : Returns (p.settle i s args) v) :
    ((fetch s args).isUndefined = true ∧ s.default = .value v) ∨
    ((fetch s args).isUndefined = true ∧ s.default = .none ∧ s.isRequired = false ∧ v = .undefined) ∨
    (Returns (s.type.check v) .passed ∧
      ((∃ j m u, (fetch s args).isUndefined = true ∧ s.default = .factory j m ∧ Returns m u ∧
        Returns (s.type.coerced u) v) ∨
      ((fetch s args).isUndefined = false ∧ Returns (s.type.coerced (fetch s args)) v))) := by
  unfold settle at h
  by_cases hv : (fetch s args).isUndefined = true
  · rw [if_pos hv] at h
    split at h
    · rename_i d hd
      cases returns_pure h
      exact .inl ⟨hv, hd⟩
    · rename_i j m hd
      obtain ⟨u, hu, h⟩ := returns_bind h
      obtain ⟨hw, hc⟩ := screen_returns (fun _ => not_returns_complainMismatch) h
      exact .inr (.inr ⟨hc, .inl ⟨j, m, u, hv, hd, hu, hw⟩⟩)
    · rename_i hd
      split at h
      · exact absurd h not_returns_complainMissing
      · rename_i hr
        exact .inr (.inl ⟨hv, hd, by simpa using hr, returns_pure h⟩)
  · rw [if_neg hv] at h
    obtain ⟨hw, hc⟩ := screen_returns (fun _ => not_returns_complainMismatch) h
    exact .inr (.inr ⟨hc, .inr ⟨by simpa using hv, hw⟩⟩)

/-- Settling all steps settles each: the values stand beside the steps they belong to. -/
theorem settled_of_returns {p : Plan σ} {args : Value} {steps : List (Step σ)} {i : Nat} {vs : List Value}
    (h : Returns (p.settleFrom args i steps) vs) :
    List.Forall₂ (fun s v => ∃ j, Returns (p.settle j s args) v) steps vs := by
  induction steps generalizing i vs with
  | nil =>
    cases returns_pure h
    exact .nil
  | cons s steps ih =>
    obtain ⟨v, hv, h⟩ := returns_bind h
    obtain ⟨vs, hvs, h⟩ := returns_bind h
    cases returns_pure h
    exact .cons ⟨i, hv⟩ (ih hvs)

/-! ## Extra arguments

  Both ways to collect extra arguments screen them in order, and differ in where they put
  what is kept. -/

/-- Screens arguments one after the other, each under the label that an error gives it. -/
def screenAll (p : Plan σ) : List (String × Value) → Call σ (List (String × Value))
  | [] => pure []
  | (k, v) :: es => do
    let v ← p.screenExtra k v
    return (k, v) :: (← screenAll p es)

/-- The entries under names that are not declared. -/
def undeclared (p : Plan σ) (es : Entries Value) : Entries Value := es.filter fun e => !p.declared.contains e.1

/-- Items from the `i`-th on, holes read as undefined. -/
def labelled (i : Nat) (items : List (Option Value)) : List (String × Value) :=
  (items.zipIdx i).map fun e => ("[" ++ Text.natText e.2 ++ "]", e.1.getD .undefined)

theorem collectNamed_eq (p : Plan σ) (es out : Entries Value) :
    p.collectNamed es out = (do let kept ← p.screenAll (p.undeclared es); return Entries.putAll kept out) := by
  induction es generalizing out with
  | nil => rfl
  | cons e es ih =>
    obtain ⟨k, v⟩ := e
    by_cases hk : p.declared.contains k = true
    · have : p.undeclared ((k, v) :: es) = p.undeclared es := by simp only [undeclared, List.filter_cons, hk]; rfl
      rw [collectNamed, if_pos hk, this]
      exact ih out
    · have : p.undeclared ((k, v) :: es) = (k, v) :: p.undeclared es := by
        simp only [undeclared, List.filter_cons, Bool.not_eq_true _ ▸ hk]
        rfl
      rw [collectNamed, if_neg hk, this, screenAll]
      simp only [bind_assoc, pure_bind, ih]
      rfl

theorem collectItems_eq (p : Plan σ) (i : Nat) (items : List (Option Value)) :
    p.collectItems i items = (do let kept ← p.screenAll (labelled i items); return kept.map (·.2)) := by
  induction items generalizing i with
  | nil => rfl
  | cons o items ih =>
    have : labelled i (o :: items) = ("[" ++ Text.natText i ++ "]", o.getD .undefined) :: labelled (i + 1) items := rfl
    rw [collectItems, this, screenAll]
    simp only [bind_assoc, pure_bind, ih]
    rfl

/-! ## Results -/

/-- The values that are there, under the names of their steps. -/
def given (steps : List (Step σ)) (values : List Value) : Entries Value :=
  (steps.zip values).filterMap fun e => if e.2.isUndefined then none else some (e.1.name, e.2)

theorem toMapped_eq (steps : List (Step σ)) (values : List Value) (out : Entries Value) :
    toMapped steps values out = Entries.putAll (given steps values) out := by
  induction steps generalizing values out with
  | nil => rfl
  | cons s steps ih =>
    cases values with
    | nil => rfl
    | cons v values =>
      rw [toMapped, ih]
      cases hv : v.isUndefined <;> simp [given, Entries.putAll, hv]

/-- The arguments outside the declared ones, in order. -/
def extraArguments (p : Plan σ) (args : Value) : List (String × Value) :=
  match p.sourceMode with
  | .named => p.undeclared args.entries
  | .positional => labelled p.steps.length (args.items.drop p.steps.length)

/-- Screens the extra arguments where they are kept. -/
def keepExtras (p : Plan σ) (args : Value) : Call σ (List (String × Value)) :=
  if p.extras.isKeep then p.screenAll (p.extraArguments args) else pure []

/-- The container of settled values and of the extra arguments that are kept: behind the
values of a record, or behind those of a list, in a record of their own where they have names. -/
def container (p : Plan σ) (values : List Value) (kept : List (String × Value)) : Value :=
  match p.outputMode, p.sourceMode with
  | .mapped, _ => .record (Entries.ofList (given p.steps values ++ kept))
  | .orderedList, .named =>
    .ofItems (values ++ if p.extras.isKeep then [.record (Entries.ofList kept)] else [])
  | .orderedList, .positional => .ofItems (values ++ kept.map (·.2))

/-- Positional arguments beyond the declared ones are kept in a list only, having no names. -/
def KeepsOrder (p : Plan σ) : Prop := p.sourceMode = .positional → p.extras.isKeep = true → p.outputMode = .orderedList

theorem KeepsOrder.named {p : Plan σ} (h : p.KeepsOrder) (hm : p.outputMode = .mapped) (hk : p.extras.isKeep = true) :
    p.sourceMode = .named := by
  cases hs : p.sourceMode with
  | named => rfl
  | positional => cases hm.symm.trans (h hs hk)

/-- Finishing screens the extra arguments that are kept and builds the container. -/
theorem finish_eq {p : Plan σ} (hp : p.KeepsOrder) (args : Value) (values : List Value) :
    p.finish args values = (do let kept ← p.keepExtras args; return p.container values kept) := by
  have hof : ∀ kept, Entries.putAll kept (Entries.putAll (given p.steps values) []) =
      Entries.ofList (given p.steps values ++ kept) := fun kept => (List.foldl_append ..).symm
  unfold finish keepExtras extraArguments container
  cases hs : p.sourceMode <;> cases ho : p.outputMode <;> cases hk : p.extras.isKeep
  case positional.mapped.true => cases ho.symm.trans (hp hs hk)
  all_goals simp only [if_true, Bool.false_eq_true, if_false, collectNamed_eq, collectItems_eq, toMapped_eq, bind_assoc,
    pure_bind, hof, List.append_nil, List.map_nil]
  all_goals rfl

/-! ## Trusted steps

  A routine may write the values of some steps into a record without the test whether there
  is one. The loop that does so is the generic one where these values are always there. -/

/-- The values under the names of their steps; one that is undefined is left out, unless its
step is trusted. -/
def trusting (trusted : Step σ → Bool) (steps : List (Step σ)) (values : List Value) : Entries Value :=
  (steps.zip values).filterMap fun e => if e.2.isUndefined && !trusted e.1 then none else some (e.1.name, e.2)

def outputOf (p : Plan σ) (trusted : Step σ → Bool) (values : List Value) : Output :=
  match p.outputMode with
  | .mapped => .record (Entries.putAll (trusting trusted p.steps values) [])
  | .orderedList => .list values

/-- The container with the extra arguments that are kept. -/
def extended (p : Plan σ) (out : Output) (kept : List (String × Value)) : Value :=
  match out, p.sourceMode with
  | .record es, _ => .record (Entries.putAll kept es)
  | .list vs, .named => .ofItems (vs ++ if p.extras.isKeep then [.record (Entries.putAll kept [])] else [])
  | .list vs, .positional => .ofItems (vs ++ kept.map (·.2))

/-- Validation by a loop that trusts some steps to have a value. -/
def loop (p : Plan σ) (trusted : Step σ → Bool) (args : Value) : Call σ Value := do
  p.receive args
  let values ← p.settleFrom args 0 p.steps
  let kept ← p.keepExtras args
  return p.extended (p.outputOf trusted values) kept

theorem trusting_eq_given {trusted : Step σ → Bool} {steps : List (Step σ)} {values : List Value}
    (h : List.Forall₂ (fun s v => trusted s = true → v.isUndefined = false) steps values) :
    trusting trusted steps values = given steps values := by
  unfold trusting given
  induction h with
  | nil => rfl
  | @cons s v steps values hv _ ih =>
    have hhere : (v.isUndefined && !trusted s) = v.isUndefined := by
      cases hs : trusted s with
      | true => rw [hv hs]; rfl
      | false => rw [Bool.not_false, Bool.and_true]
    rw [List.zip_cons_cons, List.filterMap_cons, List.filterMap_cons, ih, hhere]

theorem trusting_eq_named (trusted : Step σ → Bool) (steps : List (Step σ)) (values : List Value) :
    trusting trusted steps values = Entries.named Step.name (fun q v => v.isUndefined && !trusted q) steps values := rfl

theorem trusting_untrusted (steps : List (Step σ)) (values : List Value) :
    trusting (fun _ => false) steps values = given steps values := by
  simp [trusting, given]

section names

variable {trusted : Step σ → Bool} {steps : List (Step σ)} {values : List Value}

theorem trusting_cons (q : Step σ) (v : Value) : trusting trusted (q :: steps) (v :: values) =
    if v.isUndefined && !trusted q then trusting trusted steps values
    else (q.name, v) :: trusting trusted steps values := by
  rw [trusting_eq_named, trusting_eq_named, Entries.named_cons]

theorem trusting_sublist : ((trusting trusted steps values).map (·.1)).Sublist (steps.map (·.name)) := by
  rw [trusting_eq_named]
  exact Entries.named_sublist

theorem putAll_trusting (hn : (steps.map (·.name)).Nodup) :
    Entries.putAll (trusting trusted steps values) [] = trusting trusted steps values :=
  Entries.putAll_of_nodup (trusting_sublist.nodup hn)

/-- Under distinct names a value stands under its own, unless it is left out. -/
theorem find?_trusting (hn : (steps.map (·.name)).Nodup) {i : Nat} {q : Step σ} {v : Value} (hq : steps[i]? = some q)
    (hv : values[i]? = some v) : Entries.find? q.name (trusting trusted steps values) =
      if v.isUndefined && !trusted q then none else some v := by
  rw [trusting_eq_named]
  exact Entries.find?_named hn (List.mem_of_getElem? (List.getElem?_zip_eq_some.mpr ⟨hq, hv⟩))

end names

theorem extended_outputOf {p : Plan σ} {trusted : Step σ → Bool} {values : List Value}
    (h : trusting trusted p.steps values = given p.steps values) (kept : List (String × Value)) :
    p.extended (p.outputOf trusted values) kept = p.container values kept := by
  unfold extended outputOf container Entries.ofList
  rw [h, List.foldl_append]
  cases p.outputMode <;> cases p.sourceMode <;> rfl

/-- Where the trusted steps that settle have a value, the loop is the generic one. -/
theorem loop_eq_generic {p : Plan σ} (hp : p.KeepsOrder) {trusted : Step σ → Bool} {args : Value}
    (h : ∀ values, Returns (p.settleFrom args 0 p.steps) values →
      List.Forall₂ (fun s v => trusted s = true → v.isUndefined = false) p.steps values) :
    p.loop trusted args = p.generic args := by
  rw [generic_eq, loop]
  refine bind_congr fun _ => bind_congr_of_returns fun values hvalues => ?_
  rw [finish_eq hp]
  exact bind_congr fun kept => congrArg pure (extended_outputOf (trusting_eq_given (h values hvalues)) kept)

end Plan

end ArgGuard
