/-
  ArgGuard.Proofs.Failure.Disclosure — what is shown of a rejected value.

  In production a mark stands for the value in the context of a mismatch, and the view for the
  outside has no context. Neither keeps the value to itself: both have the reason, in the
  message if nowhere else, and the reasons of the library quote what was received. So two
  rejections of the same parameter look alike exactly when the type gave the same reason
  (`Validator.shows_reason`), and scalars give different reasons for different texts
  (`Capability.reason_text_inj`).
-/

import ArgGuard.Failure.Report
import ArgGuard.Proofs.Capability.Stock
import ArgGuard.Proofs.Routine.Outcome
import ArgGuard.Proofs.Text.Quoted

namespace ArgGuard

open Call

variable {σ : Type} {env : Surroundings σ}

/-! ## Mismatches as they are shown -/

namespace CallFault

variable (name : String) (position : Option Nat) (validator type : String) (reason : Reason) (value : Value)

/-- In production a mismatch is shown by everything but the value. -/
theorem serialize_mismatch : (mismatch name position validator type reason value).failure.serialize .production =
    .ok (.record [("name", .text "TypeMismatchError"),
      ("message", .text (validator ++ ": parameter \"" ++ name ++ "\" failed " ++ type ++ ": " ++ reason.text)),
      ("errorCode", .text "E203"), ("severity", .text "error"),
      ("context", .record [("parameter", .text name), ("position", (position.map Value.nat).getD .undefined),
        ("validator", .text validator), ("type", .text type), ("reason", reason.given), ("value", .text "[REDACTED]")]),
      ("cause", .undefined)]) := by
  have hentries : ∀ v w : Value, (Value.record [("parameter", .text name), ("position", v),
      ("validator", .text validator), ("type", .text type), ("reason", reason.given), ("value", w)]).entries =
      [("parameter", .text name), ("position", v), ("validator", .text validator), ("type", .text type),
        ("reason", reason.given), ("value", w)] := by
    intro v w
    refine Entries.ordered_of_pairwise ?_
    show List.Pairwise _ ["parameter", "position", "validator", "type", "reason", "value"]
    decide
  show (do
    let context ← Failure.redact (Value.record [("parameter", .text name),
      ("position", (position.map Value.nat).getD .undefined),
      ("validator", .text validator), ("type", .text type), ("reason", reason.given), ("value", value)])
    _) = _
  rw [Failure.redact, hentries]
  rfl

variable {name position validator type reason value}

/-- Two rejections of a parameter look alike in production when the reasons are the same. -/
theorem serialize_mismatch_inj {reason' : Reason} {value' : Value} :
    (mismatch name position validator type reason value).failure.serialize .production =
      (mismatch name position validator type reason' value').failure.serialize .production ↔ reason = reason' := by
  rw [serialize_mismatch, serialize_mismatch]
  constructor
  · intro h
    simp only [Value.record, Except.ok.injEq, Value.object.injEq, List.cons.injEq, Prod.mk.injEq, Value.text.injEq] at h
    obtain ⟨hgiven, htext⟩ : reason.given = reason'.given ∧ reason.text = reason'.text := by
      simpa [and_comm] using h
    cases reason
    cases reason'
    simp_all
  · rintro rfl
    rfl

theorem userView_mismatch_inj {reason' : Reason} {value' : Value} :
    (mismatch name position validator type reason value).failure.userView =
      (mismatch name position validator type reason' value').failure.userView ↔ reason.text = reason'.text := by
  constructor
  · intro h
    have hmessage : (mismatch name position validator type reason value).failure.message =
        (mismatch name position validator type reason' value').failure.message := by
      simp only [Failure.userView, Value.record, Value.object.injEq, List.cons.injEq, Prod.mk.injEq,
        Value.text.injEq] at h
      exact h.2.2.1.1.2
    simpa [failure, Failure.mismatch] using hmessage
  · intro h
    simp only [failure, Failure.userView, Failure.mismatch, h]
    rfl

end CallFault

/-! ## Where a mismatch comes from -/

namespace ParameterSet

/-- The type that values under a label at a position are screened by: that of the parameter, or
the one for extra arguments, which have no position. -/
inductive Screens (set : ParameterSet σ) (o : Options σ) (label : String) (position : Option Nat)
    (c : Capability σ) : Prop
  | declared {p : ParameterSpec σ} (hp : p ∈ set.specs) (hname : p.name = label) (hposition : some p.position = position)
    (htype : p.type = c)
  | extra (hposition : position = none) (hc : o.slurpy = .checked c)

variable {set : ParameterSet σ} {o : Options σ} {args : Value}

theorem eq_of_position (hset : set.Declared env) {p q : ParameterSpec σ} (hp : p ∈ set.specs) (hq : q ∈ set.specs)
    (h : p.position = q.position) : p = q := by
  obtain ⟨i, hi⟩ := List.mem_iff_getElem?.mp hp
  obtain ⟨j, hj⟩ := List.mem_iff_getElem?.mp hq
  have hsame : i = j := by
    rw [← ((declared_sound hset).2 i p hi).1, ← ((declared_sound hset).2 j q hj).1, h]
  rw [hsame, hj] at hi
  exact (Option.some.inj hi).symm

theorem Screens.unique {label : String} {position : Option Nat} {c c' : Capability σ} (hset : set.Declared env)
    (h : set.Screens o label position c) (h' : set.Screens o label position c') : c = c' := by
  cases h with
  | declared hp _ hposition htype =>
    cases h' with
    | declared hq _ hposition' htype' =>
      cases eq_of_position hset hp hq (Option.some.inj (hposition.trans hposition'.symm))
      exact htype.symm.trans htype'
    | extra hposition' _ => cases hposition.trans hposition'
  | extra hposition hc =>
    cases h' with
    | declared _ _ hposition' _ => cases hposition'.trans hposition
    | extra _ hc' => exact Slurpy.checked.inj (hc.symm.trans hc')

end ParameterSet

theorem mapM_eq_error {α β : Type} {f : α → Except Thrown β} {l : List α} {t : Thrown} (h : l.mapM f = .error t) :
    ∃ a ∈ l, f a = .error t := by
  induction l with
  | nil => cases h
  | cons a l ih =>
    rw [List.mapM_cons] at h
    cases ha : f a with
    | error u =>
      rw [ha] at h
      cases h
      exact ⟨a, List.mem_cons_self, ha⟩
    | ok b =>
      rw [ha] at h
      cases hl : l.mapM f with
      | error u =>
        rw [hl] at h
        cases h
        obtain ⟨c, hc, hf⟩ := ih hl
        exact ⟨c, List.mem_cons_of_mem _ hc, hf⟩
      | ok bs =>
        rw [hl] at h
        cases h

/-- A value that is stopped with a fault of a call was rejected by the check. -/
theorem Answers.screened_fault {c : Capability σ} (hc : c.Reliable) {path : Strategy} {s : σ}
    {fault : Value → Reason → CallFault} {v : Value} {f : CallFault}
    (h : (on path s).screened c fault v = .error (.call f)) :
    ∃ w reason, f = fault w reason ∧ Returns (c.check w) (.rejected reason) := by
  unfold screened at h
  cases hcoerced : (on path s).coerced c v with
  | error t =>
    rw [hcoerced] at h
    cases h
    exact absurd ⟨v, .inl ⟨s, hcoerced⟩⟩ (hc.quiet f)
  | ok w =>
    have hverdict := verdict_eq hc.repeatable hc.formDecides path s s w
    rw [hcoerced] at h
    simp only [bind, Except.bind] at h
    rw [hverdict] at h
    cases hr : (start (c.check w) s).1 with
    | error t =>
      rw [hr] at h
      cases h
      exact absurd ⟨w, .inr ⟨s, hr⟩⟩ (hc.quiet f)
    | ok r =>
      rw [hr] at h
      cases r with
      | passed => cases h
      | rejected reason =>
        cases h
        exact ⟨w, reason, rfl, s, hr⟩

namespace ParameterSet

variable {set : ParameterSet σ} {o : Options σ} {args : Value}

/-- Types that are reliable, and factories that make the same value each time and raise no fault
of a call themselves. -/
structure Reliable (set : ParameterSet σ) : Prop where
  types : ∀ p ∈ set.specs, p.type.Reliable
  factories : ∀ p ∈ set.specs, ∀ i make, p.default = .factory i make → Call.Repeatable make ∧ ∀ f, ¬ Stops make (.call f)

theorem Reliable.repeatable (h : set.Reliable) : set.Repeatable where
  types p hp := (h.types p hp).repeatable
  factories p hp i make hd := (h.factories p hp i make hd).1

/-- A call stops in one of its phases. -/
theorem outcome_eq_error {A : Answers σ} {t : Thrown} (h : set.outcome A o args = .error t) :
    set.admitted o args = .error t ∨ set.settledAll A o args = .error t ∨ set.screenedExtras A o args = .error t := by
  unfold outcome at h
  cases hadmitted : set.admitted o args with
  | error u =>
    rw [hadmitted] at h
    cases h
    exact .inl rfl
  | ok _ =>
    cases hvalues : set.settledAll A o args with
    | error u =>
      rw [hadmitted, hvalues] at h
      cases h
      exact .inr (.inl rfl)
    | ok values =>
      cases hkept : set.screenedExtras A o args with
      | error u =>
        rw [hadmitted, hvalues, hkept] at h
        cases h
        exact .inr (.inr rfl)
      | ok kept =>
        rw [hadmitted, hvalues, hkept] at h
        cases h

/-- Arguments that are not admitted have no value that was rejected. -/
theorem admitted_ne_mismatch {name : String} {position : Option Nat} {validator type : String}
    {reason : Reason} {x : Value} :
    set.admitted o args ≠ .error (.call (.mismatch name position validator type reason x)) := by
  intro h
  unfold admitted at h
  split at h
  · split at h
    · split at h
      · split at h <;> cases h
      · cases h
    · cases h
  · split at h
    · split at h <;> cases h
    · cases h

/-- A rejected value was rejected by the type of its parameter, or by the one for extra arguments. -/
theorem mismatch_of_outcome {path : Strategy} {s : σ} (hset : set.Reliable)
    (hslurpy : ∀ c, o.slurpy = .checked c → c.Reliable)
    {name : String} {position : Option Nat} {validator type : String} {reason : Reason} {x : Value}
    (h : set.outcome (Answers.on path s) o args = .error (.call (.mismatch name position validator type reason x))) :
    ∃ c, set.Screens o name position c ∧ validator = o.name ∧ type = c.name ∧ Returns (c.check x) (.rejected reason) := by
  rcases outcome_eq_error h with hadmitted | hsettled | hkept
  · exact absurd hadmitted admitted_ne_mismatch
  · obtain ⟨p, hp, hsettled⟩ := mapM_eq_error hsettled
    have screened : ∀ v, (Answers.on path s).screened p.type (p.mismatch o.name) v =
        .error (.call (.mismatch name position validator type reason x)) →
        ∃ c, set.Screens o name position c ∧ validator = o.name ∧ type = c.name ∧
          Returns (c.check x) (.rejected reason) := by
      intro v hv
      obtain ⟨w, r, hfault, hrejected⟩ := Answers.screened_fault (hset.types p hp) hv
      cases hfault
      exact ⟨p.type, .declared hp rfl rfl rfl, rfl, rfl, hrejected⟩
    cases ParameterSpec.settles hsettled with
    | given _ hr => exact screened _ hr
    | static _ _ hr => cases hr
    | made _ _ _ hr => exact screened _ hr
    | @unmade i make t _ hd hmade hr =>
      cases hr
      exact absurd ⟨s, hmade⟩ ((hset.factories p hp i make hd).2 _)
    | missing _ _ _ hr => cases hr
    | nothing _ _ _ hr => cases hr
  · unfold screenedExtras at hkept
    cases hs : o.slurpy with
    | off =>
      rw [hs] at hkept
      cases hkept
    | on =>
      rw [hs] at hkept
      cases hkept
    | checked c =>
      rw [hs] at hkept
      obtain ⟨e, _, he⟩ := mapM_eq_error hkept
      cases hv : (Answers.on path s).screened c (fun v reason => .mismatch e.1 none o.name c.name reason v) e.2 with
      | ok v =>
        rw [hv] at he
        cases he
      | error t =>
        rw [hv] at he
        cases he
        obtain ⟨w, r, hfault, hrejected⟩ := Answers.screened_fault (hslurpy c hs) hv
        cases hfault
        exact ⟨c, .extra rfl hs, rfl, rfl, hrejected⟩

end ParameterSet

theorem ParameterSet.reliable_fixedBooking : fixedBooking.Reliable where
  types := forall_pair (Capability.reliable_scalar ..) (Capability.reliable_scalar ..)
  factories := by
    apply forall_pair <;> intro i make hd <;> cases hd
    exact ⟨(Always.pure _).repeatable, fun f => not_stops_pure⟩

/-- The reasons of a scalar tell rejected texts apart. -/
theorem Capability.reason_text_inj {scalar : Capability.Scalar} {id : Nat} {a b : String} {reason reason' : Reason}
    (h : Returns ((scalar.capability id : Capability σ).check (.text a)) (.rejected reason))
    (h' : Returns ((scalar.capability id : Capability σ).check (.text b)) (.rejected reason')) :
    reason = reason' ↔ a = b := by
  have hreason : ∀ {text : String} {r : Reason},
      Returns ((scalar.capability id : Capability σ).check (.text text)) (.rejected r) →
      r = .ofText ("expected " ++ scalar.expectation ++ ", got " ++ Text.Quoted.quote text) := by
    intro text r hr
    have hr := returns_pure hr
    split at hr <;> cases hr
    rfl
  rw [hreason h, hreason h', Reason.ofText_inj, String.append_right_inj]
  constructor
  · intro hquoted
    have hsame : (Text.Quoted.quote a).toList ++ [] = (Text.Quoted.quote b).toList ++ [] := by rw [hquoted]
    exact (Text.Quoted.quote_append_inj hsame).1
  · rintro rfl
    rfl

/-! ## The theorem -/

namespace Validator

variable {set : ParameterSet σ} {o : Options σ} {given args args' : Value} {descriptor : String} {validator : Validator σ}
  {name w w' type type' : String} {reason reason' : Reason} {position : Option Nat} {x x' : Value} {s t : σ}

/-- Where two calls are stopped for values of the same parameter, both reasons are what its type
says of the values. What production shows is the same exactly when the reasons are, and what
is shown outside when their texts are. -/
theorem shows_reason (hset : set.Declared env) (ho : Options.resolve env given = .ok o)
    (hv : Returns (compile env set o descriptor) validator) (hreliable : set.Reliable)
    (hslurpy : ∀ c, o.slurpy = .checked c → c.Reliable)
    (h : (start (validator.validate args) s).1 = .error (.call (.mismatch name position w type reason x)))
    (h' : (start (validator.validate args') t).1 = .error (.call (.mismatch name position w' type' reason' x'))) :
    (∃ c, set.Screens o name position c ∧
      Returns (c.check x) (.rejected reason) ∧ Returns (c.check x') (.rejected reason')) ∧
    ((CallFault.mismatch name position w type reason x).failure.serialize .production =
      (CallFault.mismatch name position w' type' reason' x').failure.serialize .production ↔ reason = reason') ∧
    ((CallFault.mismatch name position w type reason x).failure.userView =
      (CallFault.mismatch name position w' type' reason' x').failure.userView ↔ reason.text = reason'.text) := by
  have run := fun s args => always_validate (Plan.keepsOrder_make ho set) hreliable.repeatable
    (fun c hc => (hslurpy c hc).repeatable) hv s args s
  rw [run] at h h'
  obtain ⟨c, hc, rfl, rfl, hrejected⟩ := ParameterSet.mismatch_of_outcome hreliable hslurpy h
  obtain ⟨c', hc', rfl, rfl, hrejected'⟩ := ParameterSet.mismatch_of_outcome hreliable hslurpy h'
  cases hc.unique hset hc'
  exact ⟨⟨c, hc, hrejected, hrejected'⟩, CallFault.serialize_mismatch_inj, CallFault.userView_mismatch_inj⟩

/-- A booking whose aisle is given as one object or another; of objects no more is said than
that they are objects. -/
theorem shows_reason_booking : ∃ validator : Validator Nat, Returns (compile .fixed .fixedBooking .lenient "") validator ∧
    ∃ f f', (start (validator.validate (.record [("seat", .text "3A"), ("aisle", .record [])])) 0).1 = .error (.call f) ∧
      (start (validator.validate (.record [("seat", .text "3A"), ("aisle", .record [("side", .text "left")])])) 0).1 =
        .error (.call f') ∧
      f.failure.serialize .production = f'.failure.serialize .production ∧ f.failure.userView = f'.failure.userView := by
  have ho : Options.resolve Surroundings.fixed (.record [("strict", .bool false)]) = .ok .lenient := rfl
  obtain ⟨validator, hv, h, h'⟩ : ∃ validator : Validator Nat,
      Returns (compile .fixed .fixedBooking .lenient "") validator ∧
      (start (validator.validate (.record [("seat", .text "3A"), ("aisle", .record [])])) 0).1 =
        .error (.call (.mismatch "aisle" (some 1) "validator" "Bool" "expected a boolean, got an object" (.record []))) ∧
      (start (validator.validate (.record [("seat", .text "3A"), ("aisle", .record [("side", .text "left")])])) 0).1 =
        .error (.call (.mismatch "aisle" (some 1) "validator" "Bool" "expected a boolean, got an object"
          (.record [("side", .text "left")]))) := ⟨_, ⟨0, rfl⟩, rfl, rfl⟩
  obtain ⟨_, hproduction, houtside⟩ := shows_reason ParameterSet.declared_fixedBooking ho hv
    ParameterSet.reliable_fixedBooking (fun _ hc => nomatch hc) h h'
  exact ⟨validator, hv, _, _, h, h', hproduction.mpr rfl, houtside.mpr rfl⟩

/-- A text is quoted by the reason, and the reason is shown in production and outside. -/
theorem rejected_text_shown : ∃ validator : Validator Nat, Returns (compile .fixed .fixedBooking .lenient "") validator ∧
    ∃ f f', (start (validator.validate (.record [("seat", .text "3A"), ("aisle", .text "left")])) 0).1 =
      .error (.call f) ∧
      (start (validator.validate (.record [("seat", .text "3A"), ("aisle", .text "right")])) 0).1 = .error (.call f') ∧
      f.failure.serialize .production ≠ f'.failure.serialize .production ∧ f.failure.userView ≠ f'.failure.userView := by
  have hv : Returns (compile .fixed .fixedBooking .lenient "") _ := ⟨0, rfl⟩
  refine ⟨_, hv, .mismatch "aisle" (some 1) "validator" "Bool" "expected a boolean, got \"left\"" (.text "left"),
    .mismatch "aisle" (some 1) "validator" "Bool" "expected a boolean, got \"right\"" (.text "right"), rfl, rfl, ?_⟩
  have hreason : "expected a boolean, got \"left\"" ≠ "expected a boolean, got \"right\"" := by decide
  exact ⟨CallFault.serialize_mismatch_inj.not.mpr (Reason.ofText_inj.not.mpr hreason),
    CallFault.userView_mismatch_inj.not.mpr hreason⟩

end Validator

end ArgGuard
