/-
  ArgGuard.Proofs.Routine.Paths — the two routines of the same parameters.

  A capability is steady when its check gives each value one verdict, whatever ran before,
  and when its inline form holds of the values that pass. Its check may change the state,
  but only where no coercion and no factory looks: in what `view` leaves out.

  Under steady capabilities a plan with the inline strategy has a program that compiles, and
  no call can tell its run from the generic loop: both come to the same value or the same
  error, with the same view of the state (`specialized_agrees`). Watched, both use the same
  coercions and factories on the same values in the same order; the program asks for a check
  only to give the reason of a rejection.
-/

import ArgGuard.Proofs.Capability.Inline
import ArgGuard.Proofs.Plan
import ArgGuard.Proofs.Routine.Watch

namespace ArgGuard

open Call

variable {σ τ ω : Type}

/-- The same outcome, and the same view of the states that two calls leave. -/
def SameEnd {α : Type} (view : σ → ω) (view' : τ → ω) (a : Except Thrown α × σ) (b : Except Thrown α × τ) : Prop :=
  a.1 = b.1 ∧ view a.2 = view' b.2

theorem sameEnd_of_agree {α : Type} {view : σ → ω} {view' : τ → ω} {c : Call σ α} {d : Call τ α}
    (h : Agree (fun s t => view s = view' t) (· = ·) c d) {s : σ} {t : τ} (hs : view s = view' t) :
    SameEnd view view' (start c s) (start d t) :=
  ⟨eq_of_matches (h s t hs).1, (h s t hs).2⟩

/-- A call that depends on nothing but the view, and changes it in one way. -/
def Call.Respects {α : Type} (view : σ → ω) (c : Call σ α) : Prop :=
  Agree (fun s t => view s = view t) (· = ·) c c

namespace Capability

/-- A check that always comes to the verdict and leaves the view alone. -/
def Judges (view : σ → ω) (c : Capability σ) (verdict : Value → Verdict) : Prop :=
  ∀ v s, (start (c.check v) s).1 = .ok (verdict v) ∧ view (start (c.check v) s).2 = view s

structure Steady (view : σ → ω) (c : Capability σ) : Prop where
  judged : ∃ verdict, c.Judges view verdict ∧
    ∀ f, c.inline? = some f → f.wellFormed = true ∧ ∀ v, f.holds v = .ok (verdict v).isPassed
  coerced : ∀ v, (c.coerced v).Respects view

/-- Under a view of all of the state, what an inline form decides is steady. -/
theorem steady_of_decides {c : Capability σ} {f : Fragment} (hf : c.inline? = some f) (h : Decides f c) :
    c.Steady (fun s => s) where
  judged := by
    choose verdict hverdict using h.2
    refine ⟨verdict, fun v s => ?_, fun g hg => ?_⟩
    · rw [(hverdict v).1]
      exact ⟨rfl, rfl⟩
    · rw [hf] at hg
      cases hg
      exact ⟨h.1, fun v => (hverdict v).2⟩
  coerced v s t hst := by
    cases hst
    exact ⟨Matches.refl (fun _ => rfl) _, rfl⟩

end Capability

/-- What is used of the code around besides checks, in order. -/
def uses (es : List Event) : List Event := es.filter fun e => !e.isCheck

theorem uses_append (es fs : List Event) : uses (es ++ fs) = uses es ++ uses fs := List.filter_append ..

/-! ## Inline form and check -/

section judged

variable {view : σ → ω} {view' : τ → ω} {c : Capability σ} {d : Capability τ} {verdict : Value → Verdict}

theorem agree_reasonFor (hc : c.Judges view verdict) (hd : d.Judges view' verdict) (v : Value) :
    Agree (fun s t => view s = view' t) (· = ·) (Plan.reasonFor c v) (Plan.reasonFor d v) := by
  refine Agree.bind (fun s t h => ?_) fun r => ?_
  · obtain ⟨hcr, hcs⟩ := hc v s
    obtain ⟨hdr, hds⟩ := hd v t
    rw [hcr, hdr, hcs, hds]
    exact ⟨rfl, h⟩
  · cases r <;> exact .pure _

/-- What meets the inline condition passes the check, and what does not is blamed alike. -/
theorem agree_demanded (hname : d.name = c.name) (hc : c.Judges view verdict) (hd : d.Judges view' verdict)
    {f : Fragment} (hf : ∀ v, f.holds v = .ok (verdict v).isPassed) (v : Value)
    (fault : String → Reason → CallFault) :
    Agree (fun s t => view s = view' t) (· = ·) (Plan.demanded c f v fault) (Plan.checked d v fault) := by
  unfold Plan.demanded
  rw [hf v, ofExcept_ok, pure_bind]
  intro s t h
  obtain ⟨hdr, hds⟩ := hd v t
  have hcheck : start (d.check v) t = (.ok (verdict v), (start (d.check v) t).2) := Prod.ext hdr rfl
  unfold Plan.checked
  rw [start_bind_ok hcheck]
  cases verdict v with
  | passed => exact ⟨rfl, h.trans hds.symm⟩
  | rejected reason =>
    simp only [Verdict.isPassed, Bool.false_eq_true, if_false, Plan.blame, hname]
    exact ((agree_reasonFor hc hd v).bind fun reason => .fail rfl) s _ (h.trans hds.symm)

end judged

/-! ## Faithful replacements -/

namespace Plan

variable {view : σ → ω} {p : Plan σ}

/-- What the code around a plan has to respect for its two routines to agree. -/
structure Steady (view : σ → ω) (p : Plan σ) : Prop where
  capabilities : ∀ c ∈ p.capabilities, c.Steady view
  factories : ∀ s ∈ p.steps, ∀ i make, s.default = .factory i make → make.Respects view

theorem faithful_id (h : p.Steady view) :
    Translation.id.Faithful (fun s t => view s = view t) (· = ·) p where
  refl _ := rfl
  coerces _ _ := rfl
  coerced c hc := (h.capabilities c hc).coerced
  made := h.factories
  demanded c hc f hf := by
    obtain ⟨verdict, hv, hi⟩ := (h.capabilities c hc).judged
    exact agree_demanded rfl hv hv (hi f hf).2

theorem judges_watch {c : Capability σ} {verdict : Value → Verdict} (h : c.Judges view verdict) :
    (watch.capability c).Judges (fun s => (view s.1, uses s.2)) verdict := by
  intro v s
  obtain ⟨hr, hs⟩ := h v s.1
  refine ⟨hr, ?_⟩
  show (view (start (c.check v) s.1).2, uses (s.2 ++ [.check c.id v])) = (view s.1, uses s.2)
  rw [hs]
  simp [uses, Event.isCheck]

theorem respects_noted {α : Type} {c : Call σ α} (e : Event) (h : c.Respects view) :
    (noted e c).Respects (fun s => (view s.1, uses s.2)) := by
  intro s t hst
  obtain ⟨hview, huses⟩ := Prod.mk.inj hst
  obtain ⟨hr, hs⟩ := h s.1 t.1 hview
  refine ⟨hr, ?_⟩
  show (view (start c s.1).2, uses (s.2 ++ [e])) = (view (start c t.1).2, uses (t.2 ++ [e]))
  rw [hs, uses_append, uses_append, huses]

theorem steady_watch_capability {c : Capability σ} (h : c.Steady view) :
    (watch.capability c).Steady (fun s => (view s.1, uses s.2)) where
  judged := by
    obtain ⟨verdict, hv, hi⟩ := h.judged
    exact ⟨verdict, judges_watch hv, hi⟩
  coerced v := by
    have hc := h.coerced v
    rw [coerced_watch]
    unfold Capability.coerced at hc
    cases hk : c.coerce? with
    | none => exact .pure _
    | some f =>
      rw [hk] at hc
      exact respects_noted _ hc

/-- Watching keeps a plan steady. -/
theorem Steady.watch (h : p.Steady view) : (p.map watch).Steady (fun s => (view s.1, uses s.2)) where
  capabilities c hc := by
    rcases List.mem_append.mp hc with hc | hc
    · obtain ⟨_, hm, rfl⟩ := List.mem_map.mp hc
      obtain ⟨s, hs, rfl⟩ := List.mem_map.mp hm
      exact steady_watch_capability (h.capabilities _ (mem_capabilities_step hs))
    · rw [type?_map, Option.mem_toList, Option.map_eq_some_iff] at hc
      obtain ⟨t, ht, rfl⟩ := hc
      exact steady_watch_capability (h.capabilities _ (mem_capabilities_extras ht))
  factories s hs i make hd := by
    obtain ⟨t, ht, rfl⟩ := List.mem_map.mp hs
    cases hk : t.default <;> simp only [Step.map, hk, Default.map] at hd <;> cases hd
    exact respects_noted _ (h.factories t ht _ _ hk)

theorem wellMade_watch (h : p.WellMade) : (p.map watch).WellMade where
  fetch s hs := by
    obtain ⟨t, ht, rfl⟩ := List.mem_map.mp hs
    exact h.fetch t ht
  kept hm hk := h.kept hm (by rwa [isKeep_map] at hk)
  required s hs hr := by
    obtain ⟨t, ht, rfl⟩ := List.mem_map.mp hs
    show t.default.map ArgGuard.watch = .none
    rw [h.required t ht hr]
    rfl
  static s hs v hd hc := by
    obtain ⟨t, ht, rfl⟩ := List.mem_map.mp hs
    cases hk : t.default <;> simp only [Step.map, hk, Default.map] at hd <;> cases hd
    exact h.static t ht v hk (by simpa [Step.map, ArgGuard.watch] using hc)

/-- Watching does not change what a call does. -/
theorem faithful_watch (h : p.Steady view) :
    ArgGuard.watch.Faithful (fun s t => view s = view t.1) (· = ·) p where
  refl _ := rfl
  coerces c _ := by simp [ArgGuard.watch]
  coerced c hc v := by
    have hr := (h.capabilities c hc).coerced v
    rw [coerced_watch]
    unfold Capability.coerced at hr ⊢
    cases hk : c.coerce? with
    | none => exact .pure _
    | some f =>
      rw [hk] at hr
      exact fun a b hab => hr a b.1 hab
  made s hs i make hd := fun a b hab => h.factories s hs i make hd a b.1 hab
  demanded c hc f hf v fault := by
    obtain ⟨verdict, hv, hi⟩ := (h.capabilities c hc).judged
    have hw : (ArgGuard.watch.capability c).Judges (fun b => view b.1) verdict := fun v b => hv v b.1
    exact agree_demanded (c := c) (d := ArgGuard.watch.capability c) rfl hv hw (hi f hf).2 v fault

/-! ## The theorem -/

/-- What the routine of a set of parameters is built as where no program of its own may run:
generated code is refused, or the options do without. -/
def BuiltWithout (set : ParameterSet σ) (o : Options σ) (b : Built σ) : Prop :=
  (∃ reason sink?, Returns ((make set o).build (some reason) sink?) b) ∨
  ∃ refusal? sink?, Returns ((make set { o with codegen := false }).build refusal? sink?) b

theorem routine_of_builtWithout {set : ParameterSet σ} {o : Options σ} {b : Built σ} (h : BuiltWithout set o b) :
    b.routine = (make set o).generic := by
  rcases h with ⟨reason, sink?, h⟩ | ⟨refusal?, sink?, h⟩
  · rcases build_cases h with ⟨_, rfl⟩ | ⟨_, hn, _⟩
    · rfl
    · cases hn
  · rcases build_cases h with ⟨_, rfl⟩ | ⟨hs, _⟩
    · exact funext (generic_codegen set o)
    · cases hs

theorem routine_of_build {p : Plan σ} (hp : p.strategy = .inline) {g : Program} (hg : p.program = .ok g)
    {sink? : Option (Sink σ)} {b : Built σ} (h : Returns (p.build none sink?) b) : b.routine = p.run g := by
  rcases build_cases h with ⟨hs | hr, _⟩ | ⟨_, _, g', hg', _, rfl⟩
  · rw [hp] at hs
    cases hs
  · cases hr
  · rw [hg] at hg'
    cases hg'
    rfl

/-- The program that a set of parameters gets has the outcomes of the generic loop. -/
theorem specialized_agrees {env : Surroundings σ} {view : σ → ω} {set : ParameterSet σ} {given : Value}
    {o : Options σ} (hset : set.Declared env) (hflags : set.FlagsBoolean) (ho : Options.resolve env given = .ok o)
    (hinline : (make set o).strategy = .inline) (hsteady : (make set o).Steady view) :
    ∃ g, (make set o).program = .ok g ∧ g.wellFormed = true ∧
      (∀ sink? b, Returns ((make set o).build none sink?) b → b.routine = (make set o).run g) ∧
      (∀ b, BuiltWithout set o b → ∀ args s t, view s = view t →
        SameEnd view view (start ((make set o).run g args) s) (start (b.routine args) t)) ∧
      ∀ args s t es, view s = view t →
        let run := start (((make set o).map watch).run g args) (s, es)
        let loop := start (((make set o).map watch).generic args) (t, es)
        SameEnd view (fun s => view s.1) (start ((make set o).run g args) s) run ∧
        SameEnd view (fun s => view s.1) (start ((make set o).generic args) t) loop ∧
        uses run.2.2 = uses loop.2.2 ∧
        checksIn run.2.2 ≤ checksIn es + 1 ∧ ∀ v, run.1 = .ok v → checksIn run.2.2 = checksIn es := by
  obtain ⟨_, hforms⟩ := inline_of_strategy hinline
  obtain ⟨g, hg⟩ := exists_program hforms
  have hw : g.wellFormed = true := program_wellFormed (fun c hc f hf => by
    obtain ⟨_, _, hi⟩ := (hsteady.capabilities c hc).judged
    exact (hi f hf).1) hg
  have hmade := make_wellMade hset hflags ho
  have hagree := fun args => agree_run_generic (faithful_id hsteady) hmade hg args
  rw [map_id] at hagree
  have hwatched : ((make set o).map watch).program = .ok g := (program_watch _).trans hg
  have hloop := fun args => agree_run_generic (faithful_watch hsteady) hmade hg args
  have hboth := fun args => agree_run_generic (faithful_id hsteady.watch) (wellMade_watch hmade) hwatched args
  rw [map_id] at hboth
  refine ⟨g, hg, hw, fun sink? b hb => routine_of_build hinline hg hb, fun b hb args s t hst => ?_, ?_⟩
  · rw [routine_of_builtWithout hb]
    exact sameEnd_of_agree (hagree args) hst
  · intro args s t es hst
    have hrun := sameEnd_of_agree (hloop args) (s := s) (t := (s, es)) rfl
    have hgen := sameEnd_of_agree (hloop args) (s := t) (t := (t, es)) rfl
    have hself := sameEnd_of_agree (hboth args) (s := (s, es)) (t := (s, es)) rfl
    have hpair := sameEnd_of_agree (hboth args) (s := (s, es)) (t := (t, es)) (by rw [hst])
    have hplain := sameEnd_of_agree (hagree args) (s := t) (t := t) rfl
    refine ⟨⟨hrun.1.trans hself.1.symm, hrun.2.trans (Prod.mk.inj hself.2).1.symm⟩,
      ⟨hplain.1.symm.trans hgen.1, hplain.2.symm.trans hgen.2⟩, (Prod.mk.inj hpair.2).2, ?_⟩
    have hquiet := quiet_run (make set o) g args (s, es)
    rcases hr : start (((make set o).map ArgGuard.watch).run g args) (s, es) with ⟨t | v, s'⟩ <;> rw [hr] at hquiet
    · exact ⟨hquiet, fun v h => (nomatch h)⟩
    · exact ⟨Nat.le_succ_of_le (Nat.le_of_eq hquiet), fun _ _ => hquiet⟩

theorem steady_booking : (make ParameterSet.booking .standard).Steady (fun n => n) where
  capabilities c hc := by
    obtain ⟨s, id, rfl⟩ := capabilities_booking rfl hc
    exact Capability.steady_of_decides rfl (Capability.decides_scalar s id)
  factories s hs i make hd a b hab := by
    cases hab
    exact ⟨Matches.refl (fun _ => rfl) _, rfl⟩

/-- Bookings on either path: the factory runs once where the aisle is not given. -/
theorem specialized_agrees_booking : ∃ g, (make ParameterSet.booking .standard).program = .ok g ∧
    ∀ args n, SameEnd (fun n => n) (fun n => n) (start ((make ParameterSet.booking .standard).run g args) n)
      (start ((make ParameterSet.booking .standard).generic args) n) := by
  obtain ⟨g, hg, _, _, hb, _⟩ := specialized_agrees ParameterSet.declared_booking ParameterSet.flagsBoolean_booking
    (Options.resolve_undefined rfl) rfl steady_booking
  refine ⟨g, hg, fun args n => hb (make ParameterSet.booking .standard).builtGeneric (.inl ?_) args n n rfl⟩
  refine ⟨"refused", none, 0, ?_⟩
  unfold build
  rw [show (make ParameterSet.booking .standard).strategy = .inline from rfl, hg]
  rfl

end Plan

end ArgGuard
