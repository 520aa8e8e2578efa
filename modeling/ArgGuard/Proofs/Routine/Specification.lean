/-
  ArgGuard.Proofs.Routine.Specification — what a call has to come to.

  Where the code around is pure, coercions, checks and factories are functions (`Reading`),
  and what a call comes to, and what it calls meanwhile, can be said without running
  anything (`Specified`): arguments of the wrong shape are refused, then extra arguments
  where the options reject them, then the parameter at fault with the smallest position,
  then the first extra argument that is rejected; else the result holds each parameter's
  value and the extra arguments that are kept.

  Something is specified for all arguments (`Specified.total`), and where the names of the
  arguments are distinct, so are the names in a result (`nodup_assigned`, `nodup_kept`).
-/

import ArgGuard.Proofs.Plan
import ArgGuard.Proofs.Routine.Watch
import Mathlib.Data.Nat.Find

namespace ArgGuard

open Call

variable {σ α : Type}

/-! ## Pure code around -/

/-- The functions that pure capabilities and, by their source, pure factories compute. -/
structure Reading (σ : Type) where
  coerce : Capability σ → Value → Value
  verdict : Capability σ → Value → Verdict
  made : Nat → Value

namespace Reading

/-- The code that a plan calls is pure, never stops with an error and computes these functions. -/
structure Of (R : Reading σ) (p : Plan σ) : Prop where
  coerced : ∀ c ∈ p.capabilities, ∀ v, c.coerced v = pure (R.coerce c v)
  checked : ∀ c ∈ p.capabilities, ∀ v, c.check v = pure (R.verdict c v)
  made : ∀ s ∈ p.steps, ∀ i make, s.default = .factory i make → make = pure (R.made i)

/-- The uses of a capability that screen a value: its coercion, if it has one, and its check. -/
def screening (R : Reading σ) (c : Capability σ) (v : Value) : List Event :=
  (if c.coerce?.isSome then [.coerce c.id v] else []) ++ [.check c.id (R.coerce c v)]

end Reading

/-! ## One parameter -/

namespace ParameterSpec

variable (R : Reading σ) (o : Options σ) (args : Value) (p : ParameterSpec σ)

/-- The argument for a parameter: the own member under its name or the item at its position,
unless that is undefined. -/
def supplied? : Option Value :=
  (match o.sourceMode with
    | .named => args.own? p.name
    | .positional => args.items[p.position]?.join).filter fun v => !v.isUndefined

/-- The value that the type has to accept: the argument, or what a factory makes instead. -/
def candidate? : Option Value :=
  match p.supplied? o args, p.default with
  | some v, _ => some v
  | none, .factory i _ => some (R.made i)
  | none, _ => none

/-- What the parameter comes to: its candidate, coerced, or its static default, or nothing. -/
def value : Value :=
  match p.candidate? R o args, p.default with
  | some v, _ => R.coerce p.type v
  | none, .value d => d
  | none, _ => .undefined

/-- What is called for the parameter. -/
def uses : List Event :=
  match p.supplied? o args, p.default with
  | some v, _ => R.screening p.type v
  | none, .factory i _ => .make i :: R.screening p.type (R.made i)
  | none, _ => []

/-- The parameter is absent, required and without a default, or its type rejects what it has to accept. -/
def Violated : Prop :=
  (p.supplied? o args = none ∧ p.isRequired = true ∧ p.default = .none) ∨
    ∃ v, p.candidate? R o args = some v ∧ R.verdict p.type (R.coerce p.type v) ≠ .passed

/-- The fault of a violated parameter, and what is called until it is reported: a rejected
value is checked once more, for the reason. -/
inductive Violation : CallFault → List Event → Prop
  | missing (absent : p.supplied? o args = none) (required : p.isRequired = true) (default : p.default = .none) :
    Violation (.missing p.name p.position o.name) []
  | mismatch {v : Value} {reason : Reason} (given : p.candidate? R o args = some v)
      (rejected : R.verdict p.type (R.coerce p.type v) = .rejected reason) :
    Violation (.mismatch p.name (some p.position) o.name p.type.name reason (R.coerce p.type v))
      (p.uses R o args ++ [.check p.type.id (R.coerce p.type v)])

/-- The four ways that a parameter gets a value: from its argument, its factory, its static
default, or not at all. -/
theorem value_cases :
    (∃ v, p.supplied? o args = some v ∧ p.candidate? R o args = some v ∧ p.value R o args = R.coerce p.type v ∧
      p.uses R o args = R.screening p.type v) ∨
    (∃ i make, p.supplied? o args = none ∧ p.default = .factory i make ∧ p.candidate? R o args = some (R.made i) ∧
      p.value R o args = R.coerce p.type (R.made i) ∧
      p.uses R o args = .make i :: R.screening p.type (R.made i)) ∨
    (∃ d, p.supplied? o args = none ∧ p.default = .value d ∧ p.candidate? R o args = none ∧ p.value R o args = d ∧
      p.uses R o args = []) ∨
    (p.supplied? o args = none ∧ p.default = .none ∧ p.candidate? R o args = none ∧
      p.value R o args = .undefined ∧ p.uses R o args = []) := by
  unfold value uses candidate?
  cases hs : p.supplied? o args with
  | some v => exact .inl ⟨v, rfl, rfl, rfl, rfl⟩
  | none =>
    cases hd : p.default with
    | factory i make => exact .inr (.inl ⟨i, make, rfl, rfl, rfl, rfl, rfl⟩)
    | value d => exact .inr (.inr (.inl ⟨d, rfl, rfl, rfl, rfl, rfl⟩))
    | none => exact .inr (.inr (.inr ⟨rfl, rfl, rfl, rfl, rfl⟩))

theorem violated_iff : p.Violated R o args ↔ ∃ f es, p.Violation R o args f es := by
  constructor
  · rintro (⟨ha, hr, hd⟩ | ⟨v, hv, hrejected⟩)
    · exact ⟨_, _, .missing ha hr hd⟩
    · cases h : R.verdict p.type (R.coerce p.type v) with
      | passed => exact absurd h hrejected
      | rejected reason => exact ⟨_, _, .mismatch hv h⟩
  · rintro ⟨f, es, ⟨ha, hr, hd⟩ | ⟨hv, hr⟩⟩
    · exact .inl ⟨ha, hr, hd⟩
    · exact .inr ⟨_, hv, by simp [hr]⟩

end ParameterSpec

/-! ## A whole call -/

namespace ParameterSet

variable (R : Reading σ) (set : ParameterSet σ) (o : Options σ) (args : Value)

/-- The shape fits, and no extra argument is there that the options reject. -/
structure Admits : Prop where
  fits : (Plan.make set o).ShapeFits args
  declared : (Plan.extrasOf o).isReject = true → o.sourceMode = .named → ∀ e ∈ args.entries, e.1 ∈ set.names
  bounded : (Plan.extrasOf o).isReject = true → o.sourceMode = .positional → args.items.length ≤ set.size

/-- The arguments outside the declared ones, in order, under the labels that errors give them. -/
def extras : List (String × Value) :=
  match o.sourceMode with
  | .named => args.entries.filter fun e => !set.names.contains e.1
  | .positional => Plan.labelled set.size (args.items.drop set.size)

/-- The extra arguments that are kept, coerced where a capability is given for them. -/
def kept : List (String × Value) :=
  match o.slurpy with
  | .off => []
  | .on => set.extras o args
  | .checked t => (set.extras o args).map fun e => (e.1, R.coerce t e.2)

/-- What is called for extra arguments. -/
def extraUses (es : List (String × Value)) : List Event :=
  match o.slurpy with
  | .checked t => es.flatMap fun e => R.screening t e.2
  | _ => []

/-- The declared names that have a value, with it. -/
def assigned : Entries Value :=
  set.specs.filterMap fun p =>
    if (p.value R o args).isUndefined then none else some (p.name, p.value R o args)

/-- The result: the values of the parameters and, behind them, the extra arguments that are kept. -/
def result : Value :=
  match o.outputMode, o.sourceMode with
  | .mapped, _ => .record (Entries.ofList (set.assigned R o args ++ set.kept R o args))
  | .orderedList, .named => .ofItems (set.specs.map (·.value R o args) ++
      match o.slurpy with
      | .off => []
      | _ => [.record (Entries.ofList (set.kept R o args))])
  | .orderedList, .positional => .ofItems (set.specs.map (·.value R o args) ++ (set.kept R o args).map (·.2))

end ParameterSet

/-- What a call with some arguments has to come to, and what it calls meanwhile. -/
inductive Specified (R : Reading σ) (set : ParameterSet σ) (o : Options σ) (args : Value) :
    Except Thrown Value → List Event → Prop
  | shape (unfit : ¬ (Plan.make set o).ShapeFits args) :
    Specified R set o args (.error (.call (.shape o.name (Plan.make set o).expectation args.describe))) []
  /-- The first undeclared name in the order of enumeration. -/
  | unknown {before after : Entries Value} {k : String} {v : Value} (fits : (Plan.make set o).ShapeFits args)
      (reject : (Plan.extrasOf o).isReject = true) (named : o.sourceMode = .named)
      (split : args.entries = before ++ (k, v) :: after) (declared : ∀ e ∈ before, e.1 ∈ set.names)
      (undeclared : k ∉ set.names) :
    Specified R set o args (.error (.call (.unknown k o.name))) []
  | extra (fits : (Plan.make set o).ShapeFits args) (reject : (Plan.extrasOf o).isReject = true)
      (positional : o.sourceMode = .positional) (long : set.size < args.items.length) :
    Specified R set o args (.error (.call (.extra set.size set.size o.name))) []
  /-- The violated parameter with the smallest position; nothing is called for those behind it. -/
  | violated {p : ParameterSpec σ} {f : CallFault} {es : List Event} (admits : set.Admits o args) (mem : p ∈ set.specs)
      (violation : p.Violation R o args f es)
      (smallest : ∀ q ∈ set.specs, q.Violated R o args → p.position ≤ q.position) :
    Specified R set o args (.error (.call f)) ((set.specs.take p.position).flatMap (·.uses R o args) ++ es)
  /-- The first extra argument that is rejected, under its name or its index. -/
  | extraRejected {t : Capability σ} {before after : List (String × Value)} {label : String} {reason : Reason} {v : Value}
      (admits : set.Admits o args) (satisfied : ∀ q ∈ set.specs, ¬ q.Violated R o args) (slurpy : o.slurpy = .checked t)
      (split : set.extras o args = before ++ (label, v) :: after)
      (accepted : ∀ e ∈ before, R.verdict t (R.coerce t e.2) = .passed)
      (rejected : R.verdict t (R.coerce t v) = .rejected reason) :
    Specified R set o args (.error (.call (.mismatch label none o.name t.name reason (R.coerce t v))))
      (set.specs.flatMap (·.uses R o args) ++
        (ParameterSet.extraUses R o (before ++ [(label, v)]) ++ [.check t.id (R.coerce t v)]))
  | returned (admits : set.Admits o args) (satisfied : ∀ q ∈ set.specs, ¬ q.Violated R o args)
      (accepted : ∀ t, o.slurpy = .checked t → ∀ e ∈ set.extras o args, R.verdict t (R.coerce t e.2) = .passed) :
    Specified R set o args (.ok (set.result R o args))
      (set.specs.flatMap (·.uses R o args) ++ ParameterSet.extraUses R o (set.extras o args))

/-! ## The specification leaves nothing open -/

/-- A list with an element that fails a test starts with elements that pass, then one that fails. -/
theorem exists_first {P : α → Prop} {l : List α} (h : ∃ a ∈ l, ¬ P a) :
    ∃ before a after, l = before ++ a :: after ∧ (∀ b ∈ before, P b) ∧ ¬ P a := by
  induction l with
  | nil =>
    obtain ⟨a, ha, _⟩ := h
    cases ha
  | cons b l ih =>
    by_cases hb : P b
    · obtain ⟨a, ha, hn⟩ := h
      have hne : a ≠ b := fun he => hn (he ▸ hb)
      obtain ⟨before, c, after, rfl, hbefore, hc⟩ := ih ⟨a, (List.mem_cons.mp ha).resolve_left hne, hn⟩
      exact ⟨b :: before, c, after, rfl, List.forall_mem_cons.mpr ⟨hb, hbefore⟩, hc⟩
    · exact ⟨[], b, l, rfl, fun _ h => (nomatch h), hb⟩

namespace Specified

variable (R : Reading σ) {set : ParameterSet σ} {o : Options σ} {args : Value}

/-- Arguments of the right shape that are not admitted are refused for an extra argument. -/
theorem exists_of_not_admits (fits : (Plan.make set o).ShapeFits args) (h : ¬ set.Admits o args) :
    ∃ r es, Specified R set o args r es := by
  cases hreject : (Plan.extrasOf o).isReject with
  | false => exact absurd ⟨fits, by simp [hreject], by simp [hreject]⟩ h
  | true =>
    cases hm : o.sourceMode with
    | named =>
      have hextra : ∃ e ∈ args.entries, ¬ e.1 ∈ set.names := by
        by_contra hn
        push Not at hn
        exact h ⟨fits, fun _ _ => hn, by simp [hm]⟩
      obtain ⟨before, ⟨k, v⟩, after, split, declared, undeclared⟩ := exists_first hextra
      exact ⟨_, _, .unknown fits hreject hm split declared undeclared⟩
    | positional =>
      have hlong : set.size < args.items.length := by
        by_contra hn
        exact h ⟨fits, by simp [hm], fun _ _ => Nat.le_of_not_lt hn⟩
      exact ⟨_, _, .extra fits hreject hm hlong⟩

/-- Something is specified for all arguments. -/
theorem total (set : ParameterSet σ) (o : Options σ) (args : Value) : ∃ r es, Specified R set o args r es := by
  by_cases fits : (Plan.make set o).ShapeFits args
  case neg => exact ⟨_, _, .shape fits⟩
  by_cases admits : set.Admits o args
  case neg => exact exists_of_not_admits R fits admits
  by_cases hviolated : ∃ n, ∃ q ∈ set.specs, q.Violated R o args ∧ q.position = n
  case pos =>
    classical
    obtain ⟨p, mem, hp, hposition⟩ := Nat.find_spec hviolated
    obtain ⟨f, es, violation⟩ := (p.violated_iff R o args).mp hp
    have smallest : ∀ q ∈ set.specs, q.Violated R o args → p.position ≤ q.position := by
      intro q hq hv
      rw [hposition]
      exact Nat.find_min' hviolated ⟨q, hq, hv, rfl⟩
    exact ⟨_, _, .violated admits mem violation smallest⟩
  have satisfied : ∀ q ∈ set.specs, ¬ q.Violated R o args := fun q hq hv => hviolated ⟨_, q, hq, hv, rfl⟩
  by_cases accepted : ∀ t, o.slurpy = .checked t → ∀ e ∈ set.extras o args, R.verdict t (R.coerce t e.2) = .passed
  case pos => exact ⟨_, _, .returned admits satisfied accepted⟩
  push Not at accepted
  obtain ⟨t, slurpy, e, he, hr⟩ := accepted
  obtain ⟨before, ⟨label, v⟩, after, split, hbefore, hv⟩ :=
    exists_first (P := fun e => R.verdict t (R.coerce t e.2) = .passed) ⟨e, he, hr⟩
  cases hverdict : R.verdict t (R.coerce t v) with
  | passed => exact absurd hverdict hv
  | rejected reason => exact ⟨_, _, .extraRejected admits satisfied slurpy split hbefore hverdict⟩

end Specified

/-! ## Nothing is lost or doubled -/

theorem ParameterSet.nodup_assigned {set : ParameterSet σ} (h : set.names.Nodup) (R : Reading σ) (o : Options σ)
    (args : Value) : ((set.assigned R o args).map (·.1)).Nodup ∧
      ∀ k ∈ (set.assigned R o args).map (·.1), k ∈ set.names := by
  have hsublist : ((set.assigned R o args).map (·.1)).Sublist set.names := by
    unfold assigned names
    induction set.specs with
    | nil => exact .slnil
    | cons p specs ih =>
      rw [List.filterMap_cons, List.map_cons]
      split
      · exact ih.cons _
      · rename_i e he
        split at he
        · cases he
        · cases he
          exact ih.cons_cons _
  exact ⟨hsublist.nodup h, fun k hk => hsublist.subset hk⟩

theorem ParameterSet.nodup_kept {set : ParameterSet σ} {o : Options σ} {args : Value}
    (h : (args.entries.map (·.1)).Nodup) (named : o.sourceMode = .named) (R : Reading σ) :
    ((set.kept R o args).map (·.1)).Nodup ∧ ∀ k ∈ (set.kept R o args).map (·.1), k ∉ set.names := by
  have hextras : ((set.extras o args).map (·.1)).Nodup ∧ ∀ k ∈ (set.extras o args).map (·.1), k ∉ set.names := by
    unfold extras
    rw [named]
    refine ⟨(List.filter_sublist.map _).nodup h, fun k hk => ?_⟩
    obtain ⟨e, he, rfl⟩ := List.mem_map.mp hk
    simpa using (List.mem_filter.mp he).2
  unfold kept
  cases o.slurpy with
  | off => exact ⟨List.nodup_nil, fun _ hk => (nomatch hk)⟩
  | on => exact hextras
  | checked t =>
    simp only [List.map_map]
    exact hextras

end ArgGuard
